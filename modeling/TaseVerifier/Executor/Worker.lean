import TaseVerifier.Executor.MavlinkWrite

/-! Runs of one worker in mode `VERIFY`: symbolic inputs are made, branches are taken and
messages are written, in any order. While the constraints are kept, the path
condition stays satisfiable and says all that the branches and messages said. -/

namespace TaseVerifier

open UFManager ConstraintManager

namespace Executor

/-- Where a worker stops. -/
inductive Stop where
  | abort (reason : Abort)
  | exit (verdict : Verdict)
  | queryFailed
  | noBranch
  deriving DecidableEq

/-- A worker: its path, and what a run leaves no trace of in the program. `branches` are
the constraints of the branches taken, `since` all constraints added since the last
accepted message, `accepted` the buffers with the messages they were accepted for. -/
structure Worker where
  path : PathState
  branches : List Expr
  since : List Expr
  accepted : List (List Expr × List (BitVec 8))

def Worker.init : Worker := ⟨PathState.init, [], [], []⟩

/-- A branch that was chosen: its constraint, whether it has to be added, and the path
after the queries. -/
structure Choice where
  branch : Expr
  adds : Bool
  path : PathState

inductive Event where
  | makeSymbolic (name : String) (size : ℕ)
  | branchRIP (input : Expr) (branchIdx : ℕ)
  | branchIR (condition : Expr) (pid : ℕ)
  | write (buf : List Expr) (msg : List (BitVec 8))

section Step

variable (solver : Solver) (getNPossibleValues : List Expr → Expr → ℕ → List APInt) (kill : Bool)

/-- The choice in `forkOnPossibleRIPValuesMavlink`: a single value is written to the
instruction pointer, else `tase_fork_RIP` picks a destination. -/
def chooseRIP (input : Expr) (branchIdx : ℕ) (s : PathState) : Except Stop Choice :=
  let (cons, s) := getDepCons input false s
  match getNPossibleValues cons input 100 with
  | [v] => pure ⟨EqExpr.create input (.constant v), false, s⟩
  | _ =>
    let (deps, s) := getDepCons input false s
    match (getNPossibleValues deps input 100)[branchIdx]? with
    | some v => pure ⟨EqExpr.create input (.constant v), true, s⟩
    | none => throw .noBranch

/-- The choice in `fork`: the condition is valid, or cannot hold, or
`forkOnPossibleIRBranches` picks a side. -/
def chooseIR (condition : Expr) (pid : ℕ) (s : PathState) : Except Stop Choice :=
  match solver.computeValidity s.cons.constraints condition with
  | none => throw .queryFailed
  | some .True => pure ⟨condition, false, s⟩
  | some .False => pure ⟨condition.createIsZero, false, s⟩
  | some .Unknown =>
    if pid = 0 then pure ⟨condition.createIsZero, true, s⟩ else pure ⟨condition, true, s⟩

/-- The branch is taken. -/
def takeBranch (w : Worker) (c : Choice) : Except Stop Worker :=
  if c.adds then
    match addConstraint c.branch c.path with
    | .error reason => throw (.abort reason)
    | .ok path => pure { w with
        path := path, branches := w.branches ++ [c.branch], since := w.since ++ [c.branch] }
  else pure { w with path := c.path, branches := w.branches ++ [c.branch] }

/-- A message is accepted, or the worker exits. -/
def writeMessage (buf : List Expr) (msg : List (BitVec 8)) (w : Worker) : Except Stop Worker :=
  match modelMavlinkWriteTase solver kill buf msg w.path with
  | .error reason => throw (.abort reason)
  | .ok (.verified, path) =>
    pure { w with path := path, since := [], accepted := w.accepted ++ [(buf, msg)] }
  | .ok (verdict, _) => throw (.exit verdict)

def Worker.step (w : Worker) : Event → Except Stop Worker
  | .makeSymbolic name size => pure { w with path := (w.path.createArray name size []).2 }
  | .branchRIP input branchIdx => chooseRIP getNPossibleValues input branchIdx w.path >>= takeBranch w
  | .branchIR condition pid => chooseIR solver condition pid w.path >>= takeBranch w
  | .write buf msg => writeMessage solver kill buf msg w

def Worker.run (events : List Event) (w : Worker) : Except Stop Worker :=
  events.foldlM (Worker.step solver getNPossibleValues kill) w

/-- Every event satisfies `P` in the state it happens in. -/
def Worker.Along (P : Worker → Event → Prop) : Worker → List Event → Prop
  | _, [] => True
  | w, ev :: events => P w ev ∧
      ∀ w', w.step solver getNPossibleValues kill ev = .ok w' → Worker.Along P w' events

/-- The expressions are well typed and mention arrays that exist. -/
def Event.WellFormed (w : Worker) : Event → Prop
  | .makeSymbolic _ _ => True
  | .branchRIP input _ => input.wellTyped = true ∧ input.Over w.path.arrays
  | .branchIR condition _ => condition.isBool = true ∧ condition.Over w.path.arrays
  | .write buf _ => Bytes w.path.arrays buf

/-- The union-find store is in order: the joins made when a constraint is added meet the
condition of the store, and a message leaves no constraint unfiled. -/
def Event.StoreOk (w : Worker) : Event → Prop
  | .makeSymbolic _ _ => True
  | .branchRIP input branchIdx => ∀ c, chooseRIP getNPossibleValues input branchIdx w.path = .ok c →
      c.adds = true → PathState.JoinsOk c.path (.addConstraint c.branch)
  | .branchIR condition pid => ∀ c, chooseIR solver condition pid w.path = .ok c →
      c.adds = true → PathState.JoinsOk c.path (.addConstraint c.branch)
  | .write buf msg => PathState.JoinsOk w.path (.addConstraint (writeCondition buf msg)) ∧
      PathState.FreeHold w.path (.addConstraint (writeCondition buf msg))

end Step

section Choices

variable {solver : Solver} {getNPossibleValues : List Expr → Expr → ℕ → List APInt}
  {s : PathState} {c : Choice}

/-- What every choice leaves as it was: the vector and the arrays. -/
structure Choice.Over (c : Choice) (s : PathState) : Prop where
  constraints : c.path.cons.constraints = s.cons.constraints
  arrays : c.path.arrays = s.arrays
  bool : c.branch.isBool = true
  isOver : c.branch.Over s.arrays

theorem over_eq_create {as : List KleeArray} {input : Expr} {v : APInt}
    (hi : input.wellTyped = true ∧ input.Over as) (hv : v.width = input.getWidth) :
    (EqExpr.create input (.constant v)).isBool = true ∧ (EqExpr.create input (.constant v)).Over as := by
  have heq : (Expr.binary .Eq input (.constant v)).wellTyped = true :=
    Expr.wellTyped_binary hi.1 rfl hv.symm rfl
  have ha := EqExpr.create_agrees heq
  exact ⟨isBool_iff.mpr ⟨ha.wellTyped, ha.getWidth⟩,
    (hereditary_over as).eq_create hi.2 (by simp [Expr.Over, Expr.symbolicRoots])⟩

theorem chooseRIP_over (hvals : ExactValues getNPossibleValues) {input : Expr} {branchIdx : ℕ}
    (hi : input.wellTyped = true ∧ input.Over s.arrays)
    (h : chooseRIP getNPossibleValues input branchIdx s = .ok c) : c.Over s := by
  simp only [chooseRIP] at h
  split at h
  next v hv =>
    cases h
    have hw := hvals.width _ input 100 v (by rw [hv]; simp)
    obtain ⟨hb, ho⟩ := over_eq_create hi hw
    exact ⟨rfl, rfl, hb, ho⟩
  next =>
    split at h
    next v hv =>
      cases h
      have hw := hvals.width _ input 100 v (List.mem_of_getElem? hv)
      obtain ⟨hb, ho⟩ := over_eq_create hi hw
      exact ⟨rfl, rfl, hb, ho⟩
    next => cases h

theorem chooseIR_over {condition : Expr} {pid : ℕ}
    (hc : condition.isBool = true ∧ condition.Over s.arrays)
    (h : chooseIR solver condition pid s = .ok c) : c.Over s := by
  obtain ⟨hb, ho⟩ := hc
  obtain ⟨ht, hw⟩ := isBool_iff.mp hb
  have ha := Expr.createIsZero_agrees ht
  have hzero : condition.createIsZero.isBool = true := isBool_iff.mpr ⟨ha.wellTyped, ha.getWidth⟩
  have hzo := (hereditary_over s.arrays).createIsZero ho
  unfold chooseIR at h
  split at h
  · cases h
  · cases h
    exact ⟨rfl, rfl, hb, ho⟩
  · cases h
    exact ⟨rfl, rfl, hzero, hzo⟩
  · split_ifs at h <;> cases h
    · exact ⟨rfl, rfl, hzero, hzo⟩
    · exact ⟨rfl, rfl, hb, ho⟩

/-- The branch can be taken under `es`, and is implied unless it is added. -/
def Choice.Feasible (c : Choice) (es : List Expr) : Prop :=
  if c.adds then Satisfiable (es ++ [c.branch]) else ∀ σ, Satisfies σ es → Holds σ c.branch

variable {es stored : List Expr} {joins : List (ℕ × ℕ)} {stores : List (ℕ × Expr)}

theorem chooseRIP_feasible (hvals : ExactValues getNPossibleValues)
    (h : PathState.Inv s es stored joins stores) (hsat : Satisfiable es) {input : Expr}
    {branchIdx : ℕ} (hi : input.wellTyped = true)
    (hc : chooseRIP getNPossibleValues input branchIdx s = .ok c) :
    c.Feasible es ∧ PathState.Inv c.path es stored joins stores := by
  have hslice := satisfiable_getDepCons h hsat input
  have hcan := canBe_getDepCons h hsat input
  have hinv := inv_getDepCons h input
  simp only [chooseRIP] at hc
  split at hc
  next v hv =>
    cases hc
    have hw := hvals.width _ input 100 v (by rw [hv]; simp)
    refine ⟨fun σ hσ => (holds_create_eq hi hw).mpr ?_, hinv⟩
    have hmem := hvals.all _ input 100 hslice hi (by rw [hv]; simp) (input.eval σ)
      ((hcan _).mpr ⟨σ, hσ, rfl⟩)
    rw [hv, List.mem_singleton] at hmem
    exact hmem
  next =>
    split at hc
    next v hv =>
      cases hc
      have hmem := List.mem_of_getElem? hv
      have hw := hvals.width _ input 100 v hmem
      have hslice' := satisfiable_getDepCons hinv hsat input
      obtain ⟨σ, hσ, hσv⟩ := (canBe_getDepCons hinv hsat input v).mp
        (hvals.possible _ input 100 hslice' v hmem)
      refine ⟨⟨σ, ?_⟩, inv_getDepCons hinv input⟩
      rw [satisfies_append, satisfies_cons]
      exact ⟨hσ, (holds_create_eq hi hw).mpr hσv, satisfies_nil σ⟩
    next => cases hc

theorem chooseIR_feasible (hideal : solver.Ideal) (h : PathState.Inv s es stored joins stores)
    (hV : ∀ σ, Satisfies σ s.cons.constraints ↔ Satisfies σ es) (hsat : Satisfiable es)
    {condition : Expr} {pid : ℕ} (hb : condition.isBool = true)
    (hc : chooseIR solver condition pid s = .ok c) :
    c.Feasible es ∧ PathState.Inv c.path es stored joins stores := by
  have hspec := validity_spec s.cons.constraints condition
  have hsatV : Satisfiable s.cons.constraints := hsat.imp fun σ => (hV σ).mpr
  have hone : ∀ {σ e}, Satisfies σ s.cons.constraints → Holds σ e → Satisfiable (es ++ [e]) := by
    intro σ e hσ he
    refine ⟨σ, ?_⟩
    rw [satisfies_append, satisfies_cons]
    exact ⟨(hV σ).mp hσ, he, satisfies_nil σ⟩
  unfold chooseIR at hc
  rw [hideal.computeValidity _ _ hsatV] at hc
  cases hval : validity s.cons.constraints condition with
  | True =>
    rw [hval] at hc hspec
    cases hc
    exact ⟨fun σ hσ => hspec σ ((hV σ).mpr hσ), h⟩
  | False =>
    rw [hval] at hc hspec
    cases hc
    exact ⟨fun σ hσ => (holds_createIsZero hb σ).mpr (hspec σ ((hV σ).mpr hσ)), h⟩
  | Unknown =>
    rw [hval] at hc hspec
    obtain ⟨⟨σ, hσ, hσc⟩, τ, hτ, hτc⟩ := hspec
    simp only at hc
    split_ifs at hc <;> cases hc
    · exact ⟨hone hτ ((holds_createIsZero hb τ).mpr hτc), h⟩
    · exact ⟨hone hσ hσc, h⟩

end Choices

/-- What a taken branch changes. -/
theorem takeBranch_cases {w w' : Worker} {c : Choice} (h : takeBranch w c = .ok w') :
    (∃ path, c.adds = true ∧ c.path.addConstraint c.branch = .ok path ∧ w' = { w with
      path := path, branches := w.branches ++ [c.branch], since := w.since ++ [c.branch] }) ∨
    (c.adds = false ∧ w' = { w with path := c.path, branches := w.branches ++ [c.branch] }) := by
  unfold takeBranch at h
  rw [addConstraint_eq] at h
  split_ifs at h with hadds
  · cases hc : c.path.addConstraint c.branch with
    | error reason => rw [hc] at h; cases h
    | ok path =>
      rw [hc] at h
      cases h
      exact .inl ⟨path, hadds, rfl, rfl⟩
  · cases h
    exact .inr ⟨by simpa using hadds, rfl⟩

/-- What an accepted message changes, and why it was accepted. -/
theorem writeMessage_cases {solver : Solver} (hideal : solver.Ideal) {kill : Bool} {buf : List Expr}
    {msg : List (BitVec 8)} {w w' : Worker} (h : writeMessage solver kill buf msg w = .ok w') :
    msg.length = buf.length ∧ ∃ s', w.path.addConstraint (writeCondition buf msg) = .ok s' ∧
      Satisfiable (deps kill (writeCondition buf msg) s').1 ∧
      w' = { w with
        path := if kill then s'.clear else (getDepCons (writeCondition buf msg) false s').2
        since := [], accepted := w.accepted ++ [(buf, msg)] } := by
  unfold writeMessage at h
  cases hm : modelMavlinkWriteTase solver kill buf msg w.path with
  | error reason => rw [hm] at h; cases h
  | ok p =>
    obtain ⟨verdict, path⟩ := p
    rw [hm] at h
    cases verdict with
    | verified =>
      cases h
      obtain ⟨hlen, s', hs', hsat, rfl⟩ := modelMavlinkWriteTase_verified hideal hm
      exact ⟨hlen, s', hs', hsat, rfl⟩
    | wrongLength | falseCondition | noSolution => cases h

theorem writeMessage_of_satisfiable {solver : Solver} (hideal : solver.Ideal) {kill : Bool}
    {buf : List Expr} {msg : List (BitVec 8)} {w : Worker} {t : PathState}
    (hlen : msg.length = buf.length) (hnf : ¬ (writeCondition buf msg).isFalse = true)
    (ht : w.path.addConstraint (writeCondition buf msg) = .ok t)
    (hsat : Satisfiable (deps kill (writeCondition buf msg) t).1) :
    writeMessage solver kill buf msg w = .ok { w with
      path := if kill then t.clear else (getDepCons (writeCondition buf msg) false t).2
      since := [], accepted := w.accepted ++ [(buf, msg)] } := by
  unfold writeMessage
  rw [modelMavlinkWriteTase_of_satisfiable hideal hlen hnf ht hsat]
  rfl

/-! ### Constraints kept -/

/-- The path condition is satisfiable and implies every branch taken and every message
accepted. -/
def Kept (w : Worker) : Prop :=
  ∃ es stored joins stores, PathState.Inv w.path es stored joins stores ∧
    (∀ σ, Satisfies σ w.path.cons.constraints ↔ Satisfies σ es) ∧ Satisfiable es ∧
    ∀ σ, Satisfies σ es → Satisfies σ w.branches ∧ ∀ p ∈ w.accepted, Matches σ p.1 p.2

theorem kept_init : Kept Worker.init :=
  ⟨[], [], [], [], PathState.inv_init, by simp [Worker.init, PathState.init],
    ⟨fun _ _ => 0, satisfies_nil _⟩, by simp [Worker.init]⟩

/-- Taking a branch that can be taken. -/
theorem kept_takeBranch {w w' : Worker} {c : Choice} {es stored : List Expr}
    {joins : List (ℕ × ℕ)} {stores : List (ℕ × Expr)}
    (hV : ∀ σ, Satisfies σ w.path.cons.constraints ↔ Satisfies σ es) (hsat : Satisfiable es)
    (hall : ∀ σ, Satisfies σ es → Satisfies σ w.branches ∧ ∀ p ∈ w.accepted, Matches σ p.1 p.2)
    (hinv : PathState.Inv c.path es stored joins stores) (hover : c.Over w.path)
    (hfeas : c.Feasible es)
    (hok : c.adds = true → PathState.JoinsOk c.path (.addConstraint c.branch))
    (h : takeBranch w c = .ok w') : Kept w' := by
  unfold Choice.Feasible at hfeas
  obtain ⟨path, hadds, hpath, rfl⟩ | ⟨hadds, rfl⟩ := takeBranch_cases h
  · rw [if_pos hadds] at hfeas
    have hwf : PathState.WellFormed c.path (.addConstraint c.branch) :=
      ⟨hover.bool, by rw [hover.arrays]; exact hover.isOver⟩
    obtain ⟨⟨joins', stores', hinv'⟩, hV'⟩ := hinv.addConstraint hwf (hok hadds) hpath
    refine ⟨es ++ [c.branch], _, joins', stores', hinv', fun σ => ?_, hfeas, fun σ hσ => ?_⟩
    · rw [hV', hover.constraints, hV, satisfies_append]
      simp
    · rw [satisfies_append] at hσ
      obtain ⟨hb, hacc⟩ := hall σ hσ.1
      exact ⟨(satisfies_append _ _ _).mpr ⟨hb, hσ.2⟩, hacc⟩
  · rw [if_neg (by simp [hadds])] at hfeas
    refine ⟨es, stored, joins, stores, hinv, fun σ => ?_, hsat, fun σ hσ => ?_⟩
    · rw [hover.constraints]
      exact hV σ
    · obtain ⟨hb, hacc⟩ := hall σ hσ
      exact ⟨(satisfies_append _ _ _).mpr ⟨hb, by simpa using hfeas σ hσ⟩, hacc⟩

section Runs

variable {solver : Solver} (hideal : solver.Ideal)
  {getNPossibleValues : List Expr → Expr → ℕ → List APInt} (hvals : ExactValues getNPossibleValues)

include hideal hvals

/-- One event, with the constraints kept. -/
theorem kept_step {w w' : Worker} {ev : Event} (hkept : Kept w) (hwf : ev.WellFormed w)
    (hok : ev.StoreOk solver getNPossibleValues w)
    (h : w.step solver getNPossibleValues false ev = .ok w') : Kept w' := by
  obtain ⟨es, stored, joins, stores, hinv, hV, hsat, hall⟩ := hkept
  cases ev with
  | makeSymbolic name size =>
    cases h
    refine ⟨es, stored, joins, stores, hinv.createArray name size [], fun σ => ?_, hsat, hall⟩
    rw [PathState.createArray_constraints]
    exact hV σ
  | branchRIP input branchIdx =>
    obtain ⟨c, hc, h⟩ := ExprReplaceVisitor.bind_eq_ok.mp h
    obtain ⟨hfeas, hinv'⟩ := chooseRIP_feasible hvals hinv hsat hwf.1 hc
    exact kept_takeBranch hV hsat hall hinv' (chooseRIP_over hvals hwf hc) hfeas (hok c hc) h
  | branchIR condition pid =>
    obtain ⟨c, hc, h⟩ := ExprReplaceVisitor.bind_eq_ok.mp h
    obtain ⟨hfeas, hinv'⟩ := chooseIR_feasible hideal hinv hV hsat hwf.1 hc
    exact kept_takeBranch hV hsat hall hinv' (chooseIR_over hwf hc) hfeas (hok c hc) h
  | write buf msg =>
    obtain ⟨hlen, s', hs', hsl, rfl⟩ := writeMessage_cases hideal h
    obtain ⟨hb, ho, hm⟩ := writeCondition_spec hwf hlen
    obtain ⟨⟨joins', stores', hinv'⟩, hV'⟩ := hinv.addConstraint ⟨hb, ho⟩ hok.1 hs'
    have hslice := getDepCons_slice hinv' (writeCondition buf msg)
    refine ⟨es ++ [writeCondition buf msg], _, joins', stores',
      inv_getDepCons hinv' (writeCondition buf msg), fun σ => ?_,
      hinv.satisfiable_of_slice ⟨hb, ho⟩ hok.2 hs' hinv' hslice hsat hsl, fun σ hσ => ?_⟩
    · refine (hV' σ).trans ?_
      rw [hV, satisfies_append]
      simp
    · rw [satisfies_append, satisfies_cons] at hσ
      obtain ⟨hbr, hacc⟩ := hall σ hσ.1
      refine ⟨hbr, fun p hp => ?_⟩
      rcases List.mem_append.mp hp with hp | hp
      · exact hacc p hp
      · obtain rfl := List.mem_singleton.mp hp
        exact (hm σ).mp hσ.2.1

/-- Whole runs, with the constraints kept. -/
theorem kept_run {w w' : Worker} {events : List Event} (hkept : Kept w)
    (hwf : Worker.Along solver getNPossibleValues false Event.WellFormed w events)
    (hok : Worker.Along solver getNPossibleValues false (Event.StoreOk solver getNPossibleValues) w
      events)
    (h : w.run solver getNPossibleValues false events = .ok w') : Kept w' := by
  induction events generalizing w with
  | nil =>
    cases h
    exact hkept
  | cons ev events ih =>
    rw [Worker.run, List.foldlM_cons] at h
    obtain ⟨w₁, h₁, h₂⟩ := ExprReplaceVisitor.bind_eq_ok.mp h
    exact ih (kept_step hideal hvals hkept hwf.1 hok.1 h₁) (hwf.2 w₁ h₁) (hok.2 w₁ h₁) h₂

end Runs

/-! ### Constraints removed after each message -/

/-- The vector holds what was added since the last accepted message. -/
def Cleared (w : Worker) : Prop :=
  BoolAll w.path.cons.constraints ∧
    ∀ σ, Satisfies σ w.path.cons.constraints ↔ Satisfies σ w.since

theorem cleared_init : Cleared Worker.init := by
  simp [Cleared, Worker.init, PathState.init, BoolAll]

theorem cleared_takeBranch {w w' : Worker} {c : Choice} (hw : Cleared w) (hover : c.Over w.path)
    (h : takeBranch w c = .ok w') : Cleared w' := by
  obtain ⟨path, -, hpath, rfl⟩ | ⟨-, rfl⟩ := takeBranch_cases h
  · have hb : BoolAll c.path.cons.constraints := by
      rw [hover.constraints]
      exact hw.1
    obtain ⟨hb', hV⟩ := PathState.satisfies_addConstraint hb hover.bool hpath
    refine ⟨hb', fun σ => (hV σ).trans ?_⟩
    rw [hover.constraints, hw.2, satisfies_append]
    simp
  · simp only [Cleared, hover.constraints]
    exact hw

section Runs

variable {solver : Solver} (hideal : solver.Ideal)
  {getNPossibleValues : List Expr → Expr → ℕ → List APInt} (hvals : ExactValues getNPossibleValues)

include hideal hvals

theorem cleared_step {w w' : Worker} {ev : Event} (hw : Cleared w) (hwf : ev.WellFormed w)
    (h : w.step solver getNPossibleValues true ev = .ok w') : Cleared w' := by
  cases ev with
  | makeSymbolic name size =>
    cases h
    simp only [Cleared, PathState.createArray_constraints]
    exact hw
  | branchRIP input branchIdx =>
    obtain ⟨c, hc, h⟩ := ExprReplaceVisitor.bind_eq_ok.mp h
    exact cleared_takeBranch hw (chooseRIP_over hvals hwf hc) h
  | branchIR condition pid =>
    obtain ⟨c, hc, h⟩ := ExprReplaceVisitor.bind_eq_ok.mp h
    exact cleared_takeBranch hw (chooseIR_over hwf hc) h
  | write buf msg =>
    obtain ⟨-, s', -, -, rfl⟩ := writeMessage_cases hideal h
    simp [Cleared, PathState.clear, ConstraintManager.clear, BoolAll]

theorem cleared_run {w w' : Worker} {events : List Event} (hw : Cleared w)
    (hwf : Worker.Along solver getNPossibleValues true Event.WellFormed w events)
    (h : w.run solver getNPossibleValues true events = .ok w') : Cleared w' := by
  induction events generalizing w with
  | nil =>
    cases h
    exact hw
  | cons ev events ih =>
    rw [Worker.run, List.foldlM_cons] at h
    obtain ⟨w₁, h₁, h₂⟩ := ExprReplaceVisitor.bind_eq_ok.mp h
    exact ih (cleared_step hideal hvals hw hwf.1 h₁) (hwf.2 w₁ h₁) h₂

end Runs

/-- Why a message was accepted when the vector is what the solver was given. -/
theorem exists_of_cleared {solver : Solver} (hideal : solver.Ideal) {w w' : Worker}
    {buf : List Expr} {msg : List (BitVec 8)} (hw : Cleared w)
    (hbuf : Bytes w.path.arrays buf) (h : writeMessage solver true buf msg w = .ok w') :
    ∃ σ, Satisfies σ w.since ∧ Matches σ buf msg := by
  obtain ⟨hlen, s', hs', ⟨σ, hσ⟩, -⟩ := writeMessage_cases hideal h
  obtain ⟨hb, -, hm⟩ := writeCondition_spec hbuf hlen
  have hσ' := ((PathState.satisfies_addConstraint hw.1 hb hs').2 σ).mp hσ
  exact ⟨σ, (hw.2 σ).mp hσ'.1, (hm σ).mp hσ'.2⟩

/-- Verification over whole runs, up to an accepted message. With the constraints kept and
the store in order, one assignment satisfies every branch taken so far and gives every
accepted buffer its message. With the constraints removed after each message, one
assignment satisfies all that was added since the last one and gives this buffer its
message. -/
theorem run_accepted (solver : Solver) (hideal : solver.Ideal)
    (getNPossibleValues : List Expr → Expr → ℕ → List APInt)
    (hvals : ExactValues getNPossibleValues) (kill : Bool) (events : List Event) (w w' : Worker)
    (buf : List Expr) (msg : List (BitVec 8))
    (hwf : Worker.Along solver getNPossibleValues kill Event.WellFormed Worker.init events)
    (hwfw : (Event.write buf msg).WellFormed w)
    (hok : kill = false → Worker.Along solver getNPossibleValues kill
      (Event.StoreOk solver getNPossibleValues) Worker.init events ∧
      (Event.write buf msg).StoreOk solver getNPossibleValues w)
    (hrun : Worker.init.run solver getNPossibleValues kill events = .ok w)
    (hw : w.step solver getNPossibleValues kill (.write buf msg) = .ok w') :
    (kill = false → ∃ σ, Satisfies σ w'.branches ∧ ∀ p ∈ w'.accepted, Matches σ p.1 p.2) ∧
      (kill = true → ∃ σ, Satisfies σ w.since ∧ Matches σ buf msg) := by
  constructor
  · rintro rfl
    obtain ⟨hok, hokw⟩ := hok rfl
    have hkept := kept_run hideal hvals kept_init hwf hok hrun
    obtain ⟨es, -, -, -, -, -, ⟨σ, hσ⟩, hall⟩ := kept_step hideal hvals hkept hwfw hokw hw
    exact ⟨σ, hall σ hσ⟩
  · rintro rfl
    exact exists_of_cleared hideal (cleared_run hideal hvals cleared_init hwf hrun) hwfw hw

/-- One byte is written twice, with the same message. -/
theorem run_accepted_twice :
    let byte := Expr.read (.root ⟨"a", 1, 0, []⟩) (.alloc 0 32)
    ∃ w w', Worker.init.run idealSolver idealValues false
        [.makeSymbolic "a" 1, .write [byte] [5]] = .ok w ∧
      w.step idealSolver idealValues false (.write [byte] [5]) = .ok w' ∧
      w'.accepted = [([byte], [5]), ([byte], [5])] ∧
      ∃ σ, Satisfies σ w'.branches ∧ ∀ p ∈ w'.accepted, Matches σ p.1 p.2 := by
  intro byte
  let a : KleeArray := ⟨"a", 1, 0, []⟩
  let five := Expr.binary .Eq (.alloc 5 8) byte
  let uf := fun cs => UFManager.mk [⟨0, a, 0, cs⟩]
  let w₀ : Worker := ⟨⟨[a], ⟨[], [], uf [], uf []⟩⟩, [], [], []⟩
  let w₁ : Worker := ⟨⟨[a], ⟨[five], [], uf [five], uf []⟩⟩, [], [], [([byte], [5])]⟩
  let w₂ : Worker := ⟨⟨[a], ⟨[five], [], uf [five, five], uf []⟩⟩, [], [],
    [([byte], [5]), ([byte], [5])]⟩
  have hsat : ∀ n, Satisfiable (List.replicate n five) := fun n =>
    ⟨fun _ _ => 5#8, fun c hc => by rw [List.eq_of_mem_replicate hc]; rfl⟩
  have hstep₁ : w₀.step idealSolver idealValues false (.write [byte] [5]) = .ok w₁ :=
    writeMessage_of_satisfiable idealSolver_ideal rfl (by decide)
      (t := ⟨[a], ⟨[five], [], uf [five], uf []⟩⟩) rfl (hsat 1)
  have hstep₂ : w₁.step idealSolver idealValues false (.write [byte] [5]) = .ok w₂ :=
    writeMessage_of_satisfiable idealSolver_ideal rfl (by decide)
      (t := ⟨[a], ⟨[five], [], uf [five, five], uf []⟩⟩) rfl (hsat 2)
  have hrun : Worker.init.run idealSolver idealValues false
      [.makeSymbolic "a" 1, .write [byte] [5]] = .ok w₁ := by
    change (w₀.step idealSolver idealValues false (.write [byte] [5]) >>= pure) = _
    rw [hstep₁]
    rfl
  have hbytes : Bytes [a] [byte] := by decide
  have hstore₁ : (Event.write [byte] [5]).StoreOk idealSolver idealValues w₀ :=
    ⟨by decide, by decide⟩
  have hstore₂ : (Event.write [byte] [5]).StoreOk idealSolver idealValues w₁ :=
    ⟨by decide, by decide⟩
  refine ⟨w₁, w₂, hrun, hstep₂, rfl, (run_accepted idealSolver idealSolver_ideal idealValues
    idealValues_exact false _ w₁ w₂ [byte] [5] ?_ hbytes (fun _ => ⟨?_, hstore₂⟩) hrun hstep₂).1 rfl⟩
  · refine ⟨trivial, fun w h => ?_⟩
    cases h
    exact ⟨hbytes, fun _ _ => trivial⟩
  · refine ⟨trivial, fun w h => ?_⟩
    cases h
    exact ⟨hstore₁, fun _ _ => trivial⟩

/-- With the constraints removed after each message, one byte is accepted as 5 and then
as 7. -/
theorem run_accepts_two_values :
    let byte := Expr.read (.root ⟨"a", 1, 0, []⟩) (.alloc 0 32)
    let events := [Event.makeSymbolic "a" 1, .write [byte] [5], .write [byte] [7]]
    ∃ w, Worker.init.run idealSolver idealValues true events = .ok w ∧
      w.accepted = [([byte], [5]), ([byte], [7])] ∧
      ¬ ∃ σ, Satisfies σ w.branches ∧ ∀ p ∈ w.accepted, Matches σ p.1 p.2 := by
  intro byte events
  let a : KleeArray := ⟨"a", 1, 0, []⟩
  let is := fun n => Expr.binary .Eq (.alloc n 8) byte
  let uf := fun cs => UFManager.mk [⟨0, a, 0, cs⟩]
  let w₀ : Worker := ⟨⟨[a], ⟨[], [], uf [], uf []⟩⟩, [], [], []⟩
  let w₁ : Worker := ⟨⟨[a], ⟨[], [], uf [is 5], uf []⟩⟩, [], [], [([byte], [5])]⟩
  let w₂ : Worker := ⟨⟨[a], ⟨[], [], uf [is 5, is 7], uf []⟩⟩, [], [],
    [([byte], [5]), ([byte], [7])]⟩
  have hsat₅ : Satisfies (fun _ _ => 5#8) [is 5] := by decide
  have hsat₇ : Satisfies (fun _ _ => 7#8) [is 7] := by decide
  have hstep₁ : w₀.step idealSolver idealValues true (.write [byte] [5]) = .ok w₁ :=
    writeMessage_of_satisfiable idealSolver_ideal rfl (by decide)
      (t := ⟨[a], ⟨[is 5], [], uf [is 5], uf []⟩⟩) rfl ⟨_, hsat₅⟩
  have hstep₂ : w₁.step idealSolver idealValues true (.write [byte] [7]) = .ok w₂ :=
    writeMessage_of_satisfiable idealSolver_ideal rfl (by decide)
      (t := ⟨[a], ⟨[is 7], [], uf [is 5, is 7], uf []⟩⟩) rfl ⟨_, hsat₇⟩
  refine ⟨w₂, ?_, rfl, ?_⟩
  · change (w₀.step idealSolver idealValues true (.write [byte] [5]) >>= fun w =>
      w.step idealSolver idealValues true (.write [byte] [7]) >>= pure) = _
    rw [hstep₁]
    change (w₁.step idealSolver idealValues true (.write [byte] [7]) >>= pure) = _
    rw [hstep₂]
    rfl
  · rintro ⟨σ, -, hσ⟩
    have h₅ := hσ ([byte], [5]) (by simp [w₂])
    have h₇ := hσ ([byte], [7]) (by simp [w₂])
    have h := h₅.symm.trans h₇
    exact absurd h (by decide)

end Executor

end TaseVerifier
