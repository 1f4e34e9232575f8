import Mathlib.Data.Int.Cast.Defs
import TaseVerifier.Library.Ranges
import TaseVerifier.Manager.Dinfo
import TaseVerifier.Manager.WorkerGroup

/-! The manager: its groups of workers, the slots in shared memory that hold the workers'
features, and what it does with the signals of the workers. `none` stands for every exit.
What the workers left in the buffer before they stopped is an argument of each operation. -/

namespace TaseVerifier

open Library

inductive VerTestType where
  | EXPLORATION | TRAIN | REPLAY | VERIFY | SINGLEMSGVER
  deriving DecidableEq

inductive TASEExplorationType where
  | DFS | BFS | ML | ED
  deriving DecidableEq

/-- The options that the manager reads, the address of its slots and their size. -/
structure Options (P : Type) where
  explorationType : TASEExplorationType
  verTestType : VerTestType
  maxRunning : ℕ
  maxStopped : ℕ
  msgsToVerify : ℤ
  forkElisionPriorityThreshold : P
  useFallBackOracle : Bool
  fallBackBranchThreshold : ℤ
  mlinfo_cache : ℕ
  pinfo_bytes : ℕ
  pinfo_pos : 0 < pinfo_bytes

def MAX_MLINFO_SLOTS : ℕ := 10000

def MAX_PICKED_WORKERS : ℕ := 2000

/-- The client's oracle. It writes the features of each candidate, which name the block at
which they end, to the candidate's slot. -/
structure Oracle (P F : Type) where
  new_predict : (ℕ → F) → WorkerInfo P → List MLBBID → List ℕ → List (WorkerInfo P) × (ℕ → F)
  lastMLBBID : F → MLBBID
  pinfo_eq : ∀ mem requester (dests : List MLBBID) (slots : List ℕ),
    slots.length = dests.length → slots.Nodup →
    (new_predict mem requester dests slots).1.map WorkerInfo.pinfo = slots
  label_eq : ∀ mem requester (dests : List MLBBID) (slots : List ℕ),
    slots.length = dests.length → slots.Nodup →
    slots.map (fun slot => lastMLBBID ((new_predict mem requester dests slots).2 slot)) = dests

/-- The last block of a worker, from the features in its slot. -/
def Oracle.getWorkerLastMLBBID {P F : Type} (oracle : Oracle P F) (mem : ℕ → F)
    (w : WorkerInfo P) : MLBBID :=
  oracle.lastMLBBID (mem w.pinfo)

/-- The candidates are those of the destinations, in their order. -/
theorem Oracle.labels {P F : Type} (oracle : Oracle P F) (mem : ℕ → F) (requester : WorkerInfo P)
    {dests : List MLBBID} {slots : List ℕ} (hlen : slots.length = dests.length)
    (hnodup : slots.Nodup) :
    (oracle.new_predict mem requester dests slots).1.map
      (oracle.getWorkerLastMLBBID (oracle.new_predict mem requester dests slots).2) = dests := by
  have hpinfo := oracle.pinfo_eq mem requester dests slots hlen hnodup
  have hlabel := oracle.label_eq mem requester dests slots hlen hnodup
  generalize oracle.new_predict mem requester dests slots = r at hpinfo hlabel ⊢
  rw [← hpinfo, List.map_map] at hlabel
  exact hlabel

structure Manager (P F : Type) [LinearOrder P] where
  Stopped : WorkerGroup P
  Running : WorkerGroup P
  next_open_mlinfo_slot : ℕ
  /-- The features in the slots. -/
  mlinfo : ℕ → F
  replay_pid : ℤ
  pickedWorkers : ℕ
  msgCtr : ℤ
  fallbackOracleActive : Bool

namespace Manager

variable {P F : Type} [LinearOrder P] (opt : Options P)

def init_structures [Inhabited F] : Manager P F where
  Stopped := .new (match opt.explorationType with
    | .BFS => .QUEUE
    | .DFS => .STACK
    | _ => .PQ)
  Running := .new .QUEUE
  next_open_mlinfo_slot := opt.mlinfo_cache
  mlinfo := fun _ => default
  replay_pid := -1
  pickedWorkers := 0
  msgCtr := 0
  fallbackOracleActive := false

/-! ### Slots -/

def resetSlots (m : Manager P F) : Manager P F :=
  { m with next_open_mlinfo_slot := opt.mlinfo_cache }

def getNewSlot (m : Manager P F) : Option (ℕ × Manager P F) :=
  let next := m.next_open_mlinfo_slot + opt.pinfo_bytes
  if opt.mlinfo_cache + MAX_MLINFO_SLOTS * opt.pinfo_bytes ≤ next then none
  else some (m.next_open_mlinfo_slot, { m with next_open_mlinfo_slot := next })

def getNewSlots (m : Manager P F) : ℕ → Option (List ℕ × Manager P F)
  | 0 => some ([], m)
  | size + 1 => do
    let (slot, m) ← m.getNewSlot opt
    let (slots, m) ← getNewSlots m size
    return (slot :: slots, m)

variable {opt} {m m' : Manager P F}

theorem getNewSlot_eq {slot : ℕ} (h : m.getNewSlot opt = some (slot, m')) :
    slot = m.next_open_mlinfo_slot ∧
      m' = { m with next_open_mlinfo_slot := m.next_open_mlinfo_slot + opt.pinfo_bytes } ∧
      m.next_open_mlinfo_slot + opt.pinfo_bytes <
        opt.mlinfo_cache + MAX_MLINFO_SLOTS * opt.pinfo_bytes := by
  simp only [getNewSlot] at h
  split at h
  · cases h
  next hlt =>
    obtain ⟨rfl, rfl⟩ := Prod.mk.inj (Option.some.inj h)
    exact ⟨rfl, rfl, Nat.lt_of_not_le hlt⟩

/-- The slots follow one another, and nothing else changes. -/
theorem getNewSlots_eq {size : ℕ} {slots : List ℕ} (h : m.getNewSlots opt size = some (slots, m')) :
    slots = ranges opt.pinfo_bytes m.next_open_mlinfo_slot size ∧
      m' = { m with
        next_open_mlinfo_slot := m.next_open_mlinfo_slot + size * opt.pinfo_bytes } ∧
      (0 < size → m.next_open_mlinfo_slot + size * opt.pinfo_bytes <
        opt.mlinfo_cache + MAX_MLINFO_SLOTS * opt.pinfo_bytes) := by
  induction size generalizing m slots with
  | zero =>
    obtain ⟨rfl, rfl⟩ := Prod.mk.inj (Option.some.inj h)
    exact ⟨rfl, by simp, fun h0 => absurd h0 (Nat.lt_irrefl 0)⟩
  | succ size ih =>
    obtain ⟨⟨slot, m₁⟩, hslot, h⟩ := Option.bind_eq_some_iff.mp h
    obtain ⟨⟨slots', m₂⟩, hslots, h⟩ := Option.bind_eq_some_iff.mp h
    obtain ⟨rfl, rfl⟩ := Prod.mk.inj (Option.some.inj h)
    obtain ⟨rfl, rfl, hlt⟩ := getNewSlot_eq hslot
    obtain ⟨rfl, rfl, hlt'⟩ := ih hslots
    have hadd : ∀ i, m.next_open_mlinfo_slot + opt.pinfo_bytes + i * opt.pinfo_bytes =
        m.next_open_mlinfo_slot + (i + 1) * opt.pinfo_bytes := fun i => by ring
    refine ⟨?_, ?_, fun _ => ?_⟩
    · exact (ranges_succ _ _ _).symm
    · simp only [hadd]
    · rw [← hadd]
      obtain rfl | hpos := Nat.eq_zero_or_pos size
      · simpa using hlt
      · exact hlt' hpos

theorem getNewSlots_nodup {size : ℕ} {slots : List ℕ}
    (h : m.getNewSlots opt size = some (slots, m')) : slots.length = size ∧ slots.Nodup := by
  obtain ⟨rfl, -⟩ := getNewSlots_eq h
  exact ⟨length_ranges _ _ _, nodup_ranges opt.pinfo_pos _ _⟩

/-! ### Replay processes -/

/-- The pid of a new replay process, which its parent left in the buffer. -/
def managerPrepForReplay (d : Dinfo) : Option ℤ :=
  match d.receive_vec_dinfo with
  | some [pid] => some (toPid pid)
  | _ => none

/-- The replay process takes the place of the worker and leaves another one behind. -/
def setup_for_replay (m : Manager P F) (w : WorkerInfo P) (d : Dinfo) :
    Option (ℤ × Manager P F) :=
  if w.pid ≠ -1 then none
  else if m.replay_pid ≤ 0 then none
  else do
    let replay_pid ← managerPrepForReplay d
    return (m.replay_pid, { m with replay_pid := replay_pid })

theorem setup_for_replay_eq {w : WorkerInfo P} {d : Dinfo} {pid : ℤ}
    (h : m.setup_for_replay w d = some (pid, m')) :
    pid = m.replay_pid ∧ ∃ r, m' = { m with replay_pid := r } := by
  unfold setup_for_replay at h
  split at h
  · cases h
  · split at h
    · cases h
    · obtain ⟨r, -, h⟩ := Option.bind_eq_some_iff.mp h
      obtain ⟨rfl, rfl⟩ := Prod.mk.inj (Option.some.inj h)
      exact ⟨rfl, r, rfl⟩

variable (opt) [IntCast P] [Inhabited F] (alg : HeapAlgorithms (WorkerInfo.priority (P := P)))

def resetForBackupOracle (m : Manager P F) (d : Dinfo) : Option (Manager P F) := do
  let m := { m with Stopped := m.Stopped.cleanUp }
  let (slot, m) ← (m.resetSlots opt).getNewSlot opt
  let m := { m with mlinfo := Function.update m.mlinfo slot default }
  let w : WorkerInfo P := ⟨-1, -1, 0, ((-1 : ℤ) : P), slot⟩
  let (assigned_pid, m) ← m.setup_for_replay w d
  return { m with Stopped := m.Stopped.push alg { w with pid := assigned_pid } }

/-! ### Scheduling -/

def initial_fork (m : Manager P F) (pid manager_pid : ℤ) (d : Dinfo) : Option (Manager P F) := do
  let (slot, m) ← m.getNewSlot opt
  let m := { m with Stopped := m.Stopped.push alg ⟨pid, manager_pid, 0, ((-1 : ℤ) : P), slot⟩ }
  let replay_pid ← managerPrepForReplay d
  return { m with replay_pid := replay_pid }

/-- Whether the next worker is scheduled after the change to the backup oracle. -/
def fallsBack (m : Manager P F) : Bool :=
  opt.useFallBackOracle && !m.fallbackOracleActive &&
    decide (opt.fallBackBranchThreshold ≤ m.pickedWorkers)

def fallBack (m : Manager P F) (d : Dinfo) : Option (Manager P F) :=
  if m.fallsBack opt then do
    let m ← ({ m with fallbackOracleActive := true } : Manager P F).resetForBackupOracle opt alg d
    return { m with pickedWorkers := m.pickedWorkers + 1 }
  else some m

/-- A worker that has no process runs on the replay process. -/
def startWorker (m : Manager P F) (curr : WorkerInfo P) (d : Dinfo) : Option (Manager P F) :=
  if curr.pid = -1 then do
    let (assigned_pid, m) ← m.setup_for_replay curr d
    return { m with Running := m.Running.push alg { curr with pid := assigned_pid } }
  else some { m with Running := m.Running.push alg curr }

/-- The buffers are what the replay processes left for the backup oracle and for the worker. -/
def schedule_worker (m : Manager P F) (d d' : Dinfo) : Option (Manager P F) :=
  if m.Running.size < opt.maxRunning then do
    let m ← m.fallBack opt alg d
    let (curr, Stopped) ← m.Stopped.pop alg
    { m with Stopped := Stopped, pickedWorkers := m.pickedWorkers + 1 }.startWorker alg curr d'
  else some m

/-! ### Signals -/

def abort (m : Manager P F) (pid : ℤ) : Option (Manager P F) := do
  let (_, Running) ← m.Running.get alg pid
  return { m with Running := Running }

/-- Ends the round, when it was not the last one. -/
def success (m : Manager P F) (pid : ℤ) (d : Dinfo) : Option (Manager P F) :=
  match opt.verTestType with
  | .TRAIN | .REPLAY | .SINGLEMSGVER => none
  | .EXPLORATION => some m
  | .VERIFY =>
    let m := { m with
      msgCtr := m.msgCtr + 1
      pickedWorkers := 0
      fallbackOracleActive := false
      Stopped := m.Stopped.cleanUp }
    if opt.msgsToVerify ≤ 0 then none
    else if opt.msgsToVerify ≤ m.msgCtr then none
    else do
      let (some tmp, Running) ← m.Running.get alg pid | none
      let m := { m.resetSlots opt with Running := Running }
      let replay_pid ← managerPrepForReplay d
      let (slot, m) ← m.getNewSlot opt
      return { m with
        replay_pid := replay_pid
        Stopped := m.Stopped.push alg { tmp with pinfo := slot } }

end Manager

end TaseVerifier
