import Mathlib.Logic.Function.Basic
import TaseVerifier.Memory.ObjectState

/-! The interpreter between two stretches of native execution. `klee_interp` classifies
the abort that ended native code, and either bounces straight back or enters a loop
that runs models, skips instrumentation and interprets blocks until native execution
is to be resumed. The word `istate` drives the loop and keeps its value between calls. -/

namespace TaseVerifier

namespace KleeInterp

/-- `EXECUTION_STATE::INTERP_STATE`. -/
inductive InterpState where
  | FAULT | MODEL | PROHIB | RESUME | SKIP | INTERP | PROHIB_RESUME | PROHIB_FAULT | BOUNCEBACK
  deriving DecidableEq

/-- `ABORT_INFO::ABORT_TYPE`. -/
inductive AbortType where
  | MODEL | POISON | UNKNOWN | OTHER
  deriving DecidableEq

/-- The bits of `mode`. -/
structure Mode where
  mixed : Bool
  sstep : Bool
  bounce : Bool

/-- The constructor of `EXECUTION_STATE`. -/
def Mode.create (mixed sstep bounce : Bool) : Mode := ⟨mixed, sstep, mixed && bounce && !sstep⟩

/-- The register context, and all that models and instructions work on besides it. -/
structure Machine (World : Type) where
  gregs : ℕ → BitVec 64
  world : World

/-- `concrete` and `txnStart` are the bits of `txn_status`. -/
structure State (World : Type) where
  machine : Machine World
  istate : InterpState
  concrete : Bool
  txnStart : Bool
  tranMax : ℕ
  cartridgeRip : BitVec 64
  savedRax : BitVec 64

/-- What a run does not change. The effects of models, of `runCoreInterpreter` with the
clean-up after it, and of a fork are arbitrary; `none` is an exit of the process. -/
structure Program (World : Type) where
  mode : Mode
  poisonSize : ℕ
  ngreg : ℕ
  GREG_RIP : ℕ
  GREG_R14 : ℕ
  GREG_EFL : ℕ
  cartridgeEntryPoints : BitVec 64 → Bool
  fnModelMap : BitVec 64 → Option (State World → Option (Machine World))
  fetch : Machine World → BitVec 64
  runCoreInterpreter : State World → Option (Machine World)
  ripIsSymbolic : Machine World → Bool
  forkOnPossibleRIPValues : BitVec 64 → Machine World → Option (Machine World)
  bouncebackOffset : BitVec 64
  tranMaxArg : ℕ
  r14_ne_rip : GREG_R14 ≠ GREG_RIP

/-- A register holds a poisoned word. -/
def poisoned (poisonSize : ℕ) (v : BitVec 64) : Bool :=
  if poisonSize = 2 then (List.range 4).any fun i => v.extractLsb' (16 * i) 16 == poisonVal
  else (List.range 2).any fun i => v.extractLsb' (32 * i) 32 == poisonVal ++ poisonVal

def Machine.set {World : Type} (i : ℕ) (v : BitVec 64) (m : Machine World) : Machine World :=
  { m with gregs := Function.update m.gregs i v }

/-- `scan<0>`. -/
def scan (target pattern mask : BitVec 64) : Bool := target &&& mask == pattern

/-- The distance of a skip. The byte mask is shifted in 32 bits, so only its first
position is left. -/
def skipOffset (cc : BitVec 64) : BitVec 32 :=
  (List.range 4).foldl (fun offset i =>
    offset ||| ((cc &&& (0xff000000#32 <<< (8 * i)).setWidth 64) >>> 24).setWidth 32) 0

inductive Action where
  | model | skip | interp
  deriving DecidableEq

/-- How one round of the loop ends. -/
inductive Outcome (World : Type) where
  | returned (st : State World)
  | continued (action : Action) (st : State World)
  | stopped

/-- A return to native code: whether it is a bounceback, and what was done before it. -/
structure Return (World : Type) where
  bounced : Bool
  actions : List Action
  state : State World

section Model

variable {World : Type} (p : Program World)

def Program.rip (m : Machine World) : BitVec 64 := m.gregs p.GREG_RIP

/-- `tase_buf_has_taint` on the register context. -/
def Program.tainted (m : Machine World) : Bool :=
  (List.range p.ngreg).any fun i => poisoned p.poisonSize (m.gregs i)

/-- Native execution may start here. -/
def Program.starts (m : Machine World) : Bool := p.mode.sstep || p.cartridgeEntryPoints (p.rip m)

def Program.findModel (st : State World) : Option (State World → Option (Machine World)) :=
  p.fnModelMap st.cartridgeRip <|> p.fnModelMap (p.rip st.machine)

def Program.setStatus (st : State World) : State World :=
  { st with
    concrete := p.mode.mixed && !p.tainted st.machine
    txnStart := p.starts st.machine }

/-- The last cases of `EXECUTION_STATE::update(type)`. -/
def Program.tryBounce (st : State World) : State World :=
  if p.mode.bounce then
    if 0 < st.tranMax then
      { st with
        istate := .BOUNCEBACK
        machine := st.machine.set p.GREG_RIP (p.rip st.machine - p.bouncebackOffset) }
    else { st with istate := .FAULT }
  else st

/-- `EXECUTION_STATE::update(type)`. -/
def Program.updateOnAbort (type : AbortType) (st : State World) : State World :=
  let st := p.setStatus st
  match type with
  | .MODEL => { st with istate := .MODEL }
  | .POISON => if p.mode.sstep then { st with istate := .INTERP } else p.tryBounce st
  | .UNKNOWN | .OTHER => p.tryBounce st

/-- `EXECUTION_STATE::update()`. -/
def Program.update (st : State World) : State World :=
  let st := p.setStatus st
  { st with
    istate := if !st.concrete then .INTERP else if st.txnStart then .RESUME else st.istate }

/-- The type in `classify_and_count`. -/
def classify (abortStatus : BitVec 32) : AbortType :=
  let highBits := abortStatus.extractLsb' 24 8
  if abortStatus.getLsbD 0 then
    if highBits = 0xff then .MODEL else if highBits < 16 then .POISON else .UNKNOWN
  else if highBits = 0 then .UNKNOWN else .OTHER

/-- `classify_and_count`, without the counts. -/
def classifyAndCount (abortStatus : BitVec 32) (st : State World) : State World :=
  let highBits := abortStatus.extractLsb' 24 8
  let retry := abortStatus = 0 ∨ abortStatus &&& 0xe ≠ 0
  match classify abortStatus with
  | .MODEL => { st with istate := .MODEL }
  | .POISON => { st with tranMax := highBits.toNat }
  | .UNKNOWN | .OTHER => { st with tranMax := if retry then st.tranMax / 2 else 0 }

/-- The end of a round: a symbolic instruction pointer is made concrete. -/
def Program.finish (action : Action) (ripInit : BitVec 64) (st : State World) : Outcome World :=
  if (st.concrete || poisoned p.poisonSize (p.rip st.machine)) && p.ripIsSymbolic st.machine then
    match p.forkOnPossibleRIPValues ripInit st.machine with
    | none => .stopped
    | some m => .continued action (p.update { st with machine := m })
  else .continued action (p.update st)

/-- The case `MODEL` of the switch. -/
def Program.runModel (mod : Option (State World → Option (Machine World))) (st : State World) :
    Outcome World :=
  match mod with
  | none => .stopped
  | some fp =>
    match fp st with
    | none => .stopped
    | some m => p.finish .model (p.rip st.machine) { st with
        machine := m
        cartridgeRip := 0
        istate := if p.mode.mixed then .RESUME else .INTERP }

/-- The last cases of the switch: the two instructions of the instrumentation are skipped,
everything else is interpreted. -/
def Program.interpret (st : State World) : Outcome World :=
  let rip := p.rip st.machine
  let cc := p.fetch st.machine
  if scan cc 0x00000000003d8d4c 0x0000000000ffffff then
    p.finish .skip rip { st with
      machine := st.machine.set p.GREG_RIP (rip + (7 + skipOffset cc).setWidth 64)
      cartridgeRip := rip
      savedRax := if cc &&& 0xff00000000000000 = 0x9c00000000000000 then 1 else 0
      istate := .SKIP }
  else if scan cc 0x0000000000f6314d 0x0000000000ffffff then
    p.finish .skip rip { st with
      machine := (st.machine.set p.GREG_EFL 2).set p.GREG_RIP (rip + 3)
      istate := .SKIP }
  else
    match p.runCoreInterpreter st with
    | none => .stopped
    | some m => p.finish .interp rip { st with machine := m, istate := .INTERP }

def Program.switch (initTrapRIP : BitVec 64) (mod : Option (State World → Option (Machine World)))
    (st : State World) : Outcome World :=
  match st.istate with
  | .PROHIB_RESUME =>
    .returned (if st.concrete ∧ st.tranMax = 0 ∧ p.rip st.machine = initTrapRIP then
      { st with istate := .PROHIB_FAULT } else st)
  | .RESUME => .returned st
  | .MODEL => p.runModel mod st
  | .BOUNCEBACK => .stopped
  | .SKIP | .FAULT | .PROHIB_FAULT | .PROHIB | .INTERP => p.interpret st

/-- One round of the loop of `klee_interp_internal`. -/
def Program.round (initTrapRIP : BitVec 64) (st : State World) : Outcome World :=
  let mod := p.findModel st
  if st.istate ≠ .MODEL ∧ st.istate ≠ .PROHIB ∧ mod.isSome then
    p.switch initTrapRIP mod { st with istate := .MODEL }
  else p.switch initTrapRIP mod st

/-- The loop, for at most `n` rounds. -/
def Program.kleeInterpInternal (initTrapRIP : BitVec 64) :
    ℕ → State World → Option (List Action × State World)
  | 0, _ => none
  | n + 1, st =>
    match p.round initTrapRIP st with
    | .stopped => none
    | .returned st => some ([], st)
    | .continued action st =>
      (kleeInterpInternal initTrapRIP n st).map fun r => (action :: r.1, r.2)

/-- The state in which `klee_interp` looks for a bounceback. -/
def Program.classified (abortStatus : BitVec 32) (st : State World) : State World :=
  p.updateOnAbort (classify abortStatus) (classifyAndCount abortStatus st)

def Program.kleeInterp (n : ℕ) (abortStatus : BitVec 32) (st : State World) : Option (Return World) :=
  let initTrapRIP := p.rip st.machine
  let st := p.classified abortStatus st
  if st.istate = .BOUNCEBACK then some ⟨true, [], st⟩
  else
    let st := { st with machine := st.machine.set p.GREG_R14 0 }
    (p.kleeInterpInternal initTrapRIP n st).map fun r =>
      ⟨false, r.1, { r.2 with tranMax := p.tranMaxArg }⟩

/-- A trap out of native execution, which shares the machine and two counters with the
interpreter and leaves any values in them. The call gets `rounds` rounds to return in. -/
structure Trap (World : Type) where
  machine : Machine World
  cartridgeRip : BitVec 64
  tranMax : ℕ
  abortStatus : BitVec 32
  rounds : ℕ

def Trap.enter (t : Trap World) (st : State World) : State World :=
  { st with machine := t.machine, cartridgeRip := t.cartridgeRip, tranMax := t.tranMax }

/-- The loop of `transferToTarget`: the calls that return, each with the state it began in. -/
def Program.run : List (Trap World) → State World → List (State World × Return World)
  | [], _ => []
  | t :: traps, st =>
    match p.kleeInterp t.rounds t.abortStatus (t.enter st) with
    | none => []
    | some r => (t.enter st, r) :: Program.run traps r.state

/-- The state after `EXECUTION_STATE` was constructed. -/
def Program.init (m : Machine World) : State World :=
  ⟨m, if p.mode.mixed then .RESUME else .INTERP, false, false, p.tranMaxArg, 0, 0⟩

end Model

/-! ### Safe returns -/

section Safety

variable {World : Type} (p : Program World)

/-- A return to native code is safe: a bounceback that rewound the instruction pointer, or
progress, no poison in the registers, and a place where native execution may start. -/
def Program.Safe (before : State World) (r : Return World) : Prop :=
  r.bounced = true ∧ p.rip r.state.machine = p.rip before.machine - p.bouncebackOffset ∨
    r.actions ≠ [] ∧ p.tainted r.state.machine = false ∧ p.starts r.state.machine = true

instance (before : State World) (r : Return World) : Decidable (p.Safe before r) :=
  inferInstanceAs (Decidable (_ ∧ _ ∨ _ ∧ _ ∧ _))

/-- The abort decides `istate`, or a model is found at once. -/
def Program.Decided (abortStatus : BitVec 32) (st : State World) : Prop :=
  p.mode.bounce = true ∨ classify abortStatus = .MODEL ∨
    classify abortStatus = .POISON ∧ p.mode.sstep = true ∨ (p.findModel st).isSome = true

instance (abortStatus : BitVec 32) (st : State World) : Decidable (p.Decided abortStatus st) :=
  inferInstanceAs (Decidable (_ ∨ _ ∨ _ ∧ _ ∨ _))

/-- Where a model may leave the machine: not in the middle of a cartridge, with nothing but
concrete registers and no further model to run. -/
def Program.Lands (st : State World) : Prop :=
  p.tainted st.machine = true ∨ p.starts st.machine = true ∨ (p.findModel st).isSome = true

instance (st : State World) : Decidable (p.Lands st) := inferInstanceAs (Decidable (_ ∨ _ ∨ _))

/-- Every model that the loop runs lands. -/
def Program.ModelsLand (initTrapRIP : BitVec 64) : ℕ → State World → Prop
  | 0, _ => True
  | n + 1, st => ∀ action st', p.round initTrapRIP st = .continued action st' →
      (action = .model → p.Lands st') ∧ ModelsLand initTrapRIP n st'

instance Program.decidableModelsLand (initTrapRIP : BitVec 64) :
    ∀ (n : ℕ) (st : State World), Decidable (p.ModelsLand initTrapRIP n st)
  | 0, _ => .isTrue trivial
  | n + 1, st =>
    match h : p.round initTrapRIP st with
    | .returned _ | .stopped => .isTrue (by rw [Program.ModelsLand, h]; intro _ _ h'; cases h')
    | .continued action st₁ =>
      have := Program.decidableModelsLand initTrapRIP n st₁
      decidable_of_iff ((action = .model → p.Lands st₁) ∧ p.ModelsLand initTrapRIP n st₁)
        ⟨fun hl => by rw [Program.ModelsLand, h]; rintro _ _ ⟨⟩; exact hl, fun hl => hl action st₁ h⟩

/-- The state in which the loop is entered. -/
def Program.entered (abortStatus : BitVec 32) (st : State World) : State World :=
  { p.classified abortStatus st with
    machine := (p.classified abortStatus st).machine.set p.GREG_R14 0 }

/-- Every call of the run meets the two conditions. -/
def Program.Orderly : List (Trap World) → State World → Prop
  | [], _ => True
  | t :: traps, st =>
    p.Decided t.abortStatus (t.enter st) ∧
    p.ModelsLand (p.rip t.machine) t.rounds (p.entered t.abortStatus (t.enter st)) ∧
    ∀ r, p.kleeInterp t.rounds t.abortStatus (t.enter st) = some r → Program.Orderly traps r.state

instance Program.decidableOrderly :
    ∀ (traps : List (Trap World)) (st : State World), Decidable (p.Orderly traps st)
  | [], _ => .isTrue trivial
  | t :: traps, st =>
    match h : p.kleeInterp t.rounds t.abortStatus (t.enter st) with
    | none =>
      decidable_of_iff (p.Decided t.abortStatus (t.enter st) ∧
          p.ModelsLand (p.rip t.machine) t.rounds (p.entered t.abortStatus (t.enter st)))
        ⟨fun ho => ⟨ho.1, ho.2, by simp [h]⟩, fun ho => ⟨ho.1, ho.2.1⟩⟩
    | some r =>
      have := Program.decidableOrderly traps r.state
      decidable_of_iff (p.Decided t.abortStatus (t.enter st) ∧
          p.ModelsLand (p.rip t.machine) t.rounds (p.entered t.abortStatus (t.enter st)) ∧
          p.Orderly traps r.state)
        ⟨fun ho => ⟨ho.1, ho.2.1, by rw [h]; rintro _ ⟨⟩; exact ho.2.2⟩,
          fun ho => ⟨ho.1, ho.2.1, ho.2.2 r h⟩⟩

/-- The loop is in order: `RESUME` was set for a safe return, or gives way to a model. -/
structure Program.LoopInv (progress : Prop) (st : State World) : Prop where
  resume : st.istate = .RESUME → (p.findModel st).isSome = true ∨
    progress ∧ p.tainted st.machine = false ∧ p.starts st.machine = true
  reached : st.istate ≠ .PROHIB ∧ st.istate ≠ .PROHIB_RESUME

variable {p}

/-- What a round leaves behind when it does not return. -/
theorem Program.finish_continued {action action' : Action} {ripInit : BitVec 64} {st st' : State World}
    (h : p.finish action ripInit st = .continued action' st') :
    action' = action ∧ ∃ m, st' = p.update { st with machine := m } := by
  unfold Program.finish at h
  split_ifs at h with hsym
  · split at h
    · cases h
    next m _ =>
      obtain ⟨rfl, rfl⟩ := Outcome.continued.inj h
      exact ⟨rfl, m, rfl⟩
  · obtain ⟨rfl, rfl⟩ := Outcome.continued.inj h
    exact ⟨rfl, st.machine, rfl⟩

/-- `update()` in mixed mode. -/
theorem Program.update_istate (hmixed : p.mode.mixed = true) (st : State World) :
    (p.update st).istate = if p.tainted st.machine = true then .INTERP
      else if p.starts st.machine = true then .RESUME else st.istate := by
  simp only [Program.update, Program.setStatus, hmixed, Bool.true_and, Bool.not_not]

theorem Program.finish_ne_returned {action : Action} {ripInit : BitVec 64} {st st' : State World} :
    p.finish action ripInit st ≠ .returned st' := by
  unfold Program.finish
  split_ifs
  · split <;> simp
  · simp

theorem Program.runModel_continued {mod : Option (State World → Option (Machine World))}
    {action : Action} {st st' : State World} (h : p.runModel mod st = .continued action st') :
    action = .model ∧ ∃ st₁, st' = p.update st₁ ∧
      st₁.istate = if p.mode.mixed then .RESUME else .INTERP := by
  unfold Program.runModel at h
  split at h
  · cases h
  · split at h
    · cases h
    · obtain ⟨rfl, m, rfl⟩ := Program.finish_continued h
      exact ⟨rfl, _, rfl, rfl⟩

theorem Program.runModel_ne_returned {mod : Option (State World → Option (Machine World))}
    {st st' : State World} : p.runModel mod st ≠ .returned st' := by
  unfold Program.runModel
  split
  · simp
  · split
    · simp
    · exact Program.finish_ne_returned

theorem Program.interpret_continued {action : Action} {st st' : State World}
    (h : p.interpret st = .continued action st') :
    ∃ st₁, st' = p.update st₁ ∧ (st₁.istate = .SKIP ∨ st₁.istate = .INTERP) := by
  unfold Program.interpret at h
  simp only at h
  split at h
  · obtain ⟨rfl, m, rfl⟩ := Program.finish_continued h
    exact ⟨_, rfl, .inl rfl⟩
  · split at h
    · obtain ⟨rfl, m, rfl⟩ := Program.finish_continued h
      exact ⟨_, rfl, .inl rfl⟩
    · split at h
      · cases h
      · obtain ⟨rfl, m, rfl⟩ := Program.finish_continued h
        exact ⟨_, rfl, .inr rfl⟩

theorem Program.interpret_ne_returned {st st' : State World} : p.interpret st ≠ .returned st' := by
  unfold Program.interpret
  simp only
  split
  · exact Program.finish_ne_returned
  · split
    · exact Program.finish_ne_returned
    · split
      · simp
      · exact Program.finish_ne_returned

/-- A round that goes on ends with `update()`. Only a model leaves `RESUME` to it. -/
theorem Program.round_continued {initTrapRIP : BitVec 64} {action : Action} {st st' : State World}
    (h : p.round initTrapRIP st = .continued action st') :
    ∃ st₁, st' = p.update st₁ ∧
      (action = .model ∧ st₁.istate = (if p.mode.mixed then .RESUME else .INTERP) ∨
        st₁.istate = .SKIP ∨ st₁.istate = .INTERP) := by
  have hswitch : ∀ st₀, p.switch initTrapRIP (p.findModel st) st₀ = .continued action st' →
      ∃ st₁, st' = p.update st₁ ∧
        (action = .model ∧ st₁.istate = (if p.mode.mixed then .RESUME else .INTERP) ∨
          st₁.istate = .SKIP ∨ st₁.istate = .INTERP) := by
    intro st₀ h₀
    unfold Program.switch at h₀
    split at h₀
    case h_1 | h_2 | h_4 => cases h₀
    case h_3 =>
      obtain ⟨hact, st₁, hst, hi⟩ := Program.runModel_continued h₀
      exact ⟨st₁, hst, .inl ⟨hact, hi⟩⟩
    all_goals
      obtain ⟨st₁, hst, hi⟩ := Program.interpret_continued h₀
      exact ⟨st₁, hst, .inr hi⟩
  unfold Program.round at h
  simp only at h
  split at h
  · exact hswitch _ h
  · exact hswitch _ h

/-- A round returns when `RESUME` is set and no model is found. -/
theorem Program.round_returned {initTrapRIP : BitVec 64} {st st' : State World}
    (hp : st.istate ≠ .PROHIB_RESUME) (h : p.round initTrapRIP st = .returned st') :
    st.istate = .RESUME ∧ (p.findModel st).isSome = false ∧ st' = st := by
  unfold Program.round at h
  simp only at h
  split at h
  · exact absurd h Program.runModel_ne_returned
  next hmod =>
    unfold Program.switch at h
    split at h
    case h_1 hi => exact absurd hi hp
    case h_2 hi =>
      refine ⟨hi, ?_, (Outcome.returned.inj h).symm⟩
      rw [hi] at hmod
      simpa using hmod
    case h_3 => exact absurd h Program.runModel_ne_returned
    case h_4 => cases h
    all_goals exact absurd h Program.interpret_ne_returned

/-- A round keeps the loop in order. -/
theorem Program.LoopInv.round (hmixed : p.mode.mixed = true) {initTrapRIP : BitVec 64}
    {action : Action} {st st' : State World} (h : p.round initTrapRIP st = .continued action st')
    (hland : action = .model → p.Lands st') : p.LoopInv True st' := by
  obtain ⟨st₁, rfl, hcase⟩ := Program.round_continued h
  have hi := Program.update_istate hmixed st₁
  have hmachine : (p.update st₁).machine = st₁.machine := rfl
  rw [← hmachine] at hi
  by_cases ht : p.tainted (p.update st₁).machine = true
  · rw [if_pos ht] at hi
    exact ⟨by simp [hi], by simp [hi]⟩
  · rw [if_neg ht] at hi
    by_cases hs : p.starts (p.update st₁).machine = true
    · rw [if_pos hs] at hi
      exact ⟨fun _ => .inr ⟨trivial, Bool.eq_false_iff.mpr ht, hs⟩, by simp [hi]⟩
    · rw [if_neg hs] at hi
      rcases hcase with ⟨hact, hr⟩ | hr | hr
      · refine ⟨fun _ => .inl ?_, by simp [hi, hr, hmixed]⟩
        rcases hland hact with h | h | h
        · exact absurd h ht
        · exact absurd h hs
        · exact h
      · exact ⟨by simp [hi, hr], by simp [hi, hr]⟩
      · exact ⟨by simp [hi, hr], by simp [hi, hr]⟩

/-- A loop that is entered in order returns safely, with `RESUME` set. -/
theorem Program.loop_safe (hmixed : p.mode.mixed = true) {initTrapRIP : BitVec 64} {n : ℕ}
    {progress : Prop} {st st' : State World} {actions : List Action} (hinv : p.LoopInv progress st)
    (hland : p.ModelsLand initTrapRIP n st)
    (h : p.kleeInterpInternal initTrapRIP n st = some (actions, st')) :
    st'.istate = .RESUME ∧ (progress ∨ actions ≠ []) ∧ p.tainted st'.machine = false ∧
      p.starts st'.machine = true := by
  induction n generalizing progress st actions with
  | zero => cases h
  | succ n ih =>
    rw [Program.kleeInterpInternal] at h
    split at h
    · cases h
    next st₁ hround =>
      obtain ⟨rfl, rfl⟩ := Prod.mk.inj (Option.some.inj h)
      obtain ⟨hi, hmod, rfl⟩ := Program.round_returned hinv.reached.2 hround
      rcases hinv.resume hi with hm | ⟨hp, hsafe⟩
      · rw [hmod] at hm
        cases hm
      · exact ⟨hi, .inl hp, hsafe⟩
    next action st₁ hround =>
      obtain ⟨⟨as, st₂⟩, hloop, heq⟩ := Option.map_eq_some_iff.mp h
      obtain ⟨rfl, rfl⟩ := Prod.mk.inj heq
      obtain ⟨hact, hrest⟩ := hland action st₁ hround
      have hsafe := ih (Program.LoopInv.round hmixed hround hact) hrest hloop
      exact ⟨hsafe.1, .inr (by simp), hsafe.2.2⟩

/-- What an abort makes of `istate`: a bounceback, a state to go on in, or nothing. -/
inductive Program.Classifies (p : Program World) (type : AbortType) (st st' : State World) : Prop
  | bounced (hi : st'.istate = .BOUNCEBACK) (hb : p.mode.bounce = true)
      (hrip : p.rip st'.machine = p.rip st.machine - p.bouncebackOffset)
  | decided (hi : st'.istate = .MODEL ∨ st'.istate = .INTERP ∨ st'.istate = .FAULT)
  | kept (hi : st'.istate = st.istate) (hm : st'.machine = st.machine)
      (hc : st'.cartridgeRip = st.cartridgeRip) (hb : p.mode.bounce = false) (ht : type ≠ .MODEL)
      (hs : ¬ (type = .POISON ∧ p.mode.sstep = true))

theorem Program.tryBounce_classifies {type : AbortType} (ht : type ≠ .MODEL)
    (hs : ¬ (type = .POISON ∧ p.mode.sstep = true)) (st : State World) :
    p.Classifies type st (p.tryBounce st) := by
  unfold Program.tryBounce
  split_ifs with hb h0
  · exact .bounced rfl hb (by simp [Program.rip, Machine.set])
  · exact .decided (.inr (.inr rfl))
  · exact .kept rfl rfl rfl (Bool.eq_false_iff.mpr hb) ht hs

theorem Program.updateOnAbort_classifies (type : AbortType) (st : State World) :
    p.Classifies type (p.setStatus st) (p.updateOnAbort type st) := by
  unfold Program.updateOnAbort
  cases type with
  | MODEL => exact .decided (.inl rfl)
  | POISON =>
    simp only
    split_ifs with hs
    · exact .decided (.inr (.inl rfl))
    · exact Program.tryBounce_classifies (by simp) (fun h => hs h.2) _
  | UNKNOWN => exact Program.tryBounce_classifies (by simp) (by simp) _
  | OTHER => exact Program.tryBounce_classifies (by simp) (by simp) _

theorem Program.classified_classifies (abortStatus : BitVec 32) (st : State World) :
    p.Classifies (classify abortStatus) st (p.classified abortStatus st) := by
  have hmachine : (classifyAndCount abortStatus st).machine = st.machine := by
    unfold classifyAndCount
    split <;> rfl
  have hrip : (classifyAndCount abortStatus st).cartridgeRip = st.cartridgeRip := by
    unfold classifyAndCount
    split <;> rfl
  have histate : classify abortStatus ≠ .MODEL →
      (classifyAndCount abortStatus st).istate = st.istate := by
    intro ht
    unfold classifyAndCount
    split
    next h => exact absurd h ht
    all_goals rfl
  rcases Program.updateOnAbort_classifies (p := p) (classify abortStatus)
      (classifyAndCount abortStatus st) with ⟨hi, hb, hr⟩ | hi | ⟨hi, hm, hc, hb, ht, hs⟩
  · refine .bounced hi hb (hr.trans ?_)
    rw [← hmachine]
    rfl
  · exact .decided hi
  · exact .kept (hi.trans (histate ht)) (hm.trans hmachine) (hc.trans hrip) hb ht hs

/-- `istate` between two calls. -/
def Program.Carried (p : Program World) (st : State World) : Prop :=
  st.istate = .RESUME ∨ p.mode.bounce = true ∧ st.istate = .BOUNCEBACK

theorem Program.findModel_entered {abortStatus : BitVec 32} {st : State World}
    (hm : (p.classified abortStatus st).machine = st.machine)
    (hc : (p.classified abortStatus st).cartridgeRip = st.cartridgeRip) :
    p.findModel (p.entered abortStatus st) = p.findModel st := by
  have hrip : p.rip (p.entered abortStatus st).machine = p.rip st.machine := by
    simp only [Program.rip, Program.entered, Machine.set, hm]
    exact Function.update_of_ne p.r14_ne_rip.symm _ _
  rw [Program.findModel, Program.findModel, hrip, Program.entered, hc]

/-- The loop is entered in order. -/
theorem Program.loopInv_entered {abortStatus : BitVec 32} {st : State World} (hcar : p.Carried st)
    (hdec : p.Decided abortStatus st) (hb : (p.classified abortStatus st).istate ≠ .BOUNCEBACK) :
    p.LoopInv False (p.entered abortStatus st) := by
  have hentered : (p.entered abortStatus st).istate = (p.classified abortStatus st).istate := rfl
  rcases Program.classified_classifies (p := p) abortStatus st with
    ⟨hi, -, -⟩ | hi | ⟨hi, hm, hc, hnb, ht, hs⟩
  · exact absurd hi hb
  · rw [← hentered] at hi
    refine ⟨fun hr => ?_, ?_⟩
    · rw [hr] at hi
      simp at hi
    · rcases hi with hi | hi | hi <;> simp [hi]
  · have hresume : st.istate = .RESUME := by
      rcases hcar with h | ⟨h, -⟩
      · exact h
      · rw [hnb] at h
        cases h
    refine ⟨fun _ => .inl ?_, by simp [hentered, hi, hresume]⟩
    rw [Program.findModel_entered hm hc]
    rcases hdec with h | h | h | h
    · rw [hnb] at h
      cases h
    · exact absurd h ht
    · exact absurd h hs
    · exact h

/-- One call returns safely. -/
theorem Program.kleeInterp_safe (hmixed : p.mode.mixed = true) {n : ℕ} {abortStatus : BitVec 32}
    {st : State World} (hcar : p.Carried st) (hdec : p.Decided abortStatus st)
    (hland : p.ModelsLand (p.rip st.machine) n (p.entered abortStatus st)) {r : Return World}
    (h : p.kleeInterp n abortStatus st = some r) : p.Safe st r ∧ p.Carried r.state := by
  unfold Program.kleeInterp at h
  simp only at h
  split_ifs at h with hb
  · cases h
    rcases Program.classified_classifies (p := p) abortStatus st with
      ⟨hi, hbounce, hr⟩ | hi | ⟨hi, -, -, hnb, -, -⟩
    · exact ⟨.inl ⟨rfl, hr⟩, .inr ⟨hbounce, hi⟩⟩
    · rw [hb] at hi
      simp at hi
    · rw [hb] at hi
      rcases hcar with h | ⟨h, -⟩
      · rw [h] at hi
        cases hi
      · rw [hnb] at h
        cases h
  · obtain ⟨⟨actions, st'⟩, hloop, rfl⟩ := Option.map_eq_some_iff.mp h
    obtain ⟨hi, hprogress, hsafe⟩ :=
      Program.loop_safe hmixed (Program.loopInv_entered hcar hdec hb) hland hloop
    exact ⟨.inr ⟨hprogress.resolve_left id, hsafe⟩, .inl hi⟩

theorem Program.run_safe_of_carried (hmixed : p.mode.mixed = true) {traps : List (Trap World)}
    {st : State World} (hcar : p.Carried st) (hok : p.Orderly traps st) :
    ∀ call ∈ p.run traps st, p.Safe call.1 call.2 := by
  induction traps generalizing st with
  | nil => simp [Program.run]
  | cons t traps ih =>
    obtain ⟨hdec, hland, hrest⟩ := hok
    rw [Program.run]
    split
    · simp
    next r hr =>
      have hcar' : p.Carried (t.enter st) := hcar
      obtain ⟨hsafe, hcarried⟩ := Program.kleeInterp_safe hmixed hcar' hdec hland hr
      rw [List.forall_mem_cons]
      exact ⟨hsafe, ih hcarried (hrest r hr)⟩

end Safety

/-- In mixed mode, along every run in which each abort decides what to do and each model
lands, every return to native code is safe. -/
theorem Program.run_safe {World : Type} (p : Program World) (sstep bounce : Bool)
    (hmode : p.mode = Mode.create true sstep bounce) (m : Machine World) (traps : List (Trap World))
    (hok : p.Orderly traps (p.init m)) : ∀ call ∈ p.run traps (p.init m), p.Safe call.1 call.2 := by
  have hmixed : p.mode.mixed = true := by rw [hmode]; rfl
  exact Program.run_safe_of_carried hmixed (.inl (by simp [Program.init, hmixed])) hok

/-- Three registers, a cartridge that starts at 0x100, and a model at 0x200 that returns
there. -/
def sampleProgram (sstep bounce : Bool) : Program Unit where
  mode := Mode.create true sstep bounce
  poisonSize := 2
  ngreg := 3
  GREG_RIP := 0
  GREG_R14 := 1
  GREG_EFL := 2
  cartridgeEntryPoints a := a == 0x100
  fnModelMap a := if a = 0x200 then some fun st => some (st.machine.set 0 0x100) else none
  fetch _ := 0
  runCoreInterpreter st := some st.machine
  ripIsSymbolic _ := false
  forkOnPossibleRIPValues _ m := some m
  bouncebackOffset := 0
  tranMaxArg := 16
  r14_ne_rip := by decide

/-- A trap at `rip` with the other registers zero. -/
def sampleTrap (rip : BitVec 64) (abortStatus : BitVec 32) (rounds : ℕ) : Trap Unit :=
  ⟨⟨fun i => if i = 0 then rip else 0, ()⟩, 0, 16, abortStatus, rounds⟩

/-- An unknown abort is bounced back, and a model returns to native code. -/
theorem Program.run_safe_twice :
    let p := sampleProgram false true
    let traps := [sampleTrap 0x300 0 2, sampleTrap 0x200 0xff000001 2]
    let m : Machine Unit := ⟨fun _ => 0, ()⟩
    p.Orderly traps (p.init m) ∧ (p.run traps (p.init m)).map (fun call => call.2.actions) = [[], [.model]] ∧
      ∀ call ∈ p.run traps (p.init m), p.Safe call.1 call.2 := by
  intro p traps m
  have hok : p.Orderly traps (p.init m) := by decide
  exact ⟨hok, by decide, Program.run_safe p false true rfl m traps hok⟩

/-- Without bouncing back, an unknown abort leaves the `RESUME` of the construction in place,
and the call returns at once, in the middle of a cartridge. -/
theorem Program.run_resumes_stale :
    let p := sampleProgram false false
    let m : Machine Unit := ⟨fun _ => 0, ()⟩
    ∃ call ∈ p.run [sampleTrap 0x300 0 1] (p.init m),
      call.2.actions = [] ∧ ¬ p.Safe call.1 call.2 := by
  intro p m
  exact ⟨_, List.mem_cons_self, by decide, by decide⟩

/-! ### Skipped instrumentation -/

section Skips

variable {World : Type} (p : Program World)

/-- The state in which the case that skips a `leaq` leaves the switch. -/
def Program.skipLeaq (st : State World) : State World :=
  let rip := p.rip st.machine
  let cc := p.fetch st.machine
  { st with
    machine := st.machine.set p.GREG_RIP (rip + (7 + skipOffset cc).setWidth 64)
    cartridgeRip := rip
    savedRax := if cc &&& 0xff00000000000000 = 0x9c00000000000000 then 1 else 0
    istate := .SKIP }

/-- The first three bytes are those of `leaq disp(%rip),%r15`. -/
def isLeaq (cc : BitVec 64) : Bool := scan cc 0x00000000003d8d4c 0x0000000000ffffff

theorem Program.interpret_leaq {st : State World} (h : isLeaq (p.fetch st.machine) = true) :
    p.interpret st = p.finish .skip (p.rip st.machine) (p.skipLeaq st) := by
  unfold Program.interpret
  exact if_pos h

/-- The displacement of the `leaq`, in the bytes 3 to 6. -/
def displacement (cc : BitVec 64) : BitVec 32 := cc.extractLsb' 24 32

/-- Where the `leaq` points to. -/
def leaqTarget (rip cc : BitVec 64) : BitVec 64 := rip + 7 + (displacement cc).signExtend 64

/-- Only the lowest byte of the displacement is found. -/
theorem toNat_skipOffset (cc : BitVec 64) : (skipOffset cc).toNat = (displacement cc).toNat % 2 ^ 8 := by
  have hfirst : (0xff000000#32 <<< (8 * 0)).setWidth 64 = 0xff000000#64 := by decide
  have hmask : ∀ i ∈ [1, 2, 3], (0xff000000#32 <<< (8 * i)).setWidth 64 = 0#64 := by decide
  have hoffset : skipOffset cc = ((cc &&& 0xff000000#64) >>> 24).setWidth 32 := by
    simp only [skipOffset, List.range, List.range.loop, List.foldl_cons, List.foldl_nil, hfirst,
      hmask 1 (by decide), hmask 2 (by decide), hmask 3 (by decide)]
    simp
  have hbyte : (cc &&& 0xff000000#64) >>> 24 = cc >>> 24 &&& 0xff#64 :=
    BitVec.ushiftRight_and_distrib cc 0xff000000#64 24
  have hand : cc.toNat >>> 24 &&& 255 = cc.toNat >>> 24 % 2 ^ 8 :=
    Nat.and_two_pow_sub_one_eq_mod _ 8
  rw [hoffset, hbyte, displacement, BitVec.toNat_setWidth, BitVec.toNat_and, BitVec.toNat_ushiftRight,
    BitVec.extractLsb'_toNat]
  change (cc.toNat >>> 24 &&& 255) % 2 ^ 32 = _
  rw [hand]
  omega

/-- The skip lands on the target exactly when the upper three bytes of the displacement are
zero. -/
theorem skip_lands_iff (rip cc : BitVec 64) :
    rip + (7 + skipOffset cc).setWidth 64 = leaqTarget rip cc ↔ cc.extractLsb' 32 24 = 0 := by
  have hoff := toNat_skipOffset cc
  have hhigh : (cc.extractLsb' 32 24).toNat = (displacement cc).toNat / 2 ^ 8 := by
    simp only [displacement, BitVec.extractLsb'_toNat, Nat.shiftRight_eq_div_pow]
    omega
  have hlt := (displacement cc).isLt
  have hsext := BitVec.toNat_signExtend (displacement cc) (v := 64)
  have hrip := rip.isLt
  have hsum : (7 + skipOffset cc).toNat = 7 + (displacement cc).toNat % 2 ^ 8 := by
    rw [BitVec.toNat_add, hoff]
    simp
    omega
  have hmsb : (displacement cc).msb = decide (2 ^ 31 ≤ (displacement cc).toNat) :=
    BitVec.msb_eq_decide _
  rw [BitVec.toNat_setWidth, hmsb] at hsext
  rw [leaqTarget, ← BitVec.toNat_inj, ← BitVec.toNat_inj, hhigh, BitVec.toNat_add, BitVec.toNat_add,
    BitVec.toNat_add, BitVec.toNat_setWidth, hsum, hsext]
  have hzero : (0 : BitVec 24).toNat = 0 := rfl
  have hseven : (7 : BitVec 64).toNat = 7 := rfl
  rw [hzero, hseven]
  by_cases hneg : 2 ^ 31 ≤ (displacement cc).toNat
  · rw [decide_eq_true hneg, if_pos rfl]
    omega
  · rw [decide_eq_false hneg, if_neg Bool.false_ne_true]
    omega

/-- Whenever an instrumentation `leaq` is at the instruction pointer, the skip goes to its target
exactly when the upper three bytes of the displacement are zero. -/
theorem Program.skipLeaq_lands_iff {st : State World} (h : isLeaq (p.fetch st.machine) = true) :
    p.interpret st = p.finish .skip (p.rip st.machine) (p.skipLeaq st) ∧
      (p.rip (p.skipLeaq st).machine = leaqTarget (p.rip st.machine) (p.fetch st.machine) ↔
        (p.fetch st.machine).extractLsb' 32 24 = 0) := by
  have hrip : p.rip (p.skipLeaq st).machine =
      p.rip st.machine + (7 + skipOffset (p.fetch st.machine)).setWidth 64 :=
    Function.update_self _ _ _
  rw [hrip, skip_lands_iff]
  exact ⟨p.interpret_leaq h, Iff.rfl⟩

end Skips

/-- The instruction at every address is `cc`. -/
def leaqProgram (cc : BitVec 64) : Program Unit := { sampleProgram false false with fetch := fun _ => cc }

/-- A jump of 16 bytes. -/
theorem Program.skipLeaq_lands_forward :
    let p := leaqProgram 0x9c000000103d8d4c
    let st := p.init ⟨fun _ => 0x400000, ()⟩
    isLeaq (p.fetch st.machine) = true ∧ p.rip (p.skipLeaq st).machine = 0x400017 := by
  intro p st
  have hleaq : isLeaq (p.fetch st.machine) = true := by decide
  have hlands := (p.skipLeaq_lands_iff hleaq).2.mpr (by decide)
  exact ⟨hleaq, hlands.trans (by decide)⟩

/-- A jump of 256 bytes goes to the next instruction. -/
theorem Program.skipLeaq_misses : ¬ ∀ (p : Program Unit) (st : State Unit),
    isLeaq (p.fetch st.machine) = true →
      p.rip (p.skipLeaq st).machine = leaqTarget (p.rip st.machine) (p.fetch st.machine) := by
  intro h
  have hlands := h (leaqProgram 0x9c000001003d8d4c)
    ((leaqProgram 0x9c000001003d8d4c).init ⟨fun _ => 0x400000, ()⟩) (by decide)
  exact absurd hlands (by decide)

end KleeInterp

end TaseVerifier
