import TaseVerifier.Manager.Tasks

/-! The rounds of the verification: the manager with the processes of its workers, which go
through the client's branches. Whatever the manager schedules, and whether a destination gets
a process or is replayed, no path of the client is lost in a round and none is explored twice. -/

namespace TaseVerifier

open Library Library.Frontier

/-- The manager, the processes that are alive, each with the blocks that it went through,
and the complete paths that processes have ended on. -/
structure Exploration (P F : Type) [LinearOrder P] where
  manager : Manager P F
  processes : List (ℤ × List MLBBID)
  explored : List (List MLBBID)

/-- A worker is scheduled, a running process reaches a branch, or it ends. -/
inductive Move where
  | schedule (d d' : Dinfo)
  | fork (pid : ℤ) (d : Dinfo) (forks : List ℤ)
  | finish (pid : ℤ)

/-- A round that has ended: its moves, the worker that succeeded with what it left in the
buffer, and the snapshot and the branches from which it goes on. -/
structure Round (F : Type) where
  moves : List Move
  pid : ℤ
  d : Dinfo
  snapshot : Process F
  tree : BranchTree

/-- The client in the round behind. -/
def Client.next {F : Type} (client : Client F) (r : Round F) : Client F :=
  { client with snapshot := r.snapshot, tree := r.tree }

namespace Exploration

variable {P F : Type} [LinearOrder P] [IntCast P] [Inhabited F] (opt : Options P)
  (alg : HeapAlgorithms (WorkerInfo.priority (P := P)))
  (sort : SortAlgorithm (WorkerInfo.priority (P := P))) (oracle : Oracle P F) (client : Client F)

/-- The first worker, which is stopped before the client's first branch. -/
def start (pid manager_pid : ℤ) (d : Dinfo) : Option (Exploration P F) := do
  let m ← (Manager.init_structures opt).initial_fork opt alg pid manager_pid d
  return ⟨m, [(pid, [])], []⟩

/-- The process on which the next worker runs: its own, or the replay process, which goes
through the branches that the worker's fragment lists. -/
def launched (e : Exploration P F) : Option (List (ℤ × List MLBBID)) := do
  let (curr, _) ← e.manager.Stopped.pop alg
  if curr.pid = -1 then
    let w ← Process.replay client.logEvaluates opt.useFallBackOracle client.getExecutionFragment
      (client.snapshot.replayProcess e.manager.mlinfo curr.pinfo)
      (e.manager.fragment client curr).length client.tree
    return [(e.manager.replay_pid, w.path)]
  else return []

def schedule (e : Exploration P F) (d d' : Dinfo) : Option (Exploration P F) := do
  let m ← e.manager.schedule_worker opt alg d d'
  if e.manager.Running.size < opt.maxRunning then
    let launched ← e.launched opt alg client
    return { e with manager := m, processes := launched ++ e.processes }
  else return { e with manager := m }

/-- The process at a branch asks the manager, and each process that is alive afterwards
resumes at its own destination. -/
def fork (e : Exploration P F) (pid : ℤ) (d : Dinfo) (forks : List ℤ) :
    Option (Exploration P F) := do
  let p ← e.processes.find? (·.1 = pid)
  let t ← client.tree.subtree p.2
  match t with
  | .done => none
  | .branch dests =>
    let (m, processes) ←
      e.manager.forkRequest opt alg sort oracle d pid (dests.map Prod.fst) forks
    return { e with
      manager := m
      processes := processes.map (fun q => (q.1, p.2 ++ [q.2])) ++ e.processes.erase p }

/-- The process of a running worker ends behind the last branch, and signals so. -/
def finish (e : Exploration P F) (pid : ℤ) : Option (Exploration P F) := do
  let p ← e.processes.find? (·.1 = pid)
  let t ← client.tree.subtree p.2
  match t with
  | .branch _ => none
  | .done =>
    let some _ ← e.manager.Running.find pid | none
    let m ← e.manager.abort alg pid
    return { e with
      manager := m
      processes := e.processes.erase p
      explored := e.explored ++ [p.2] }

def step (e : Exploration P F) : Move → Option (Exploration P F)
  | .schedule d d' => e.schedule opt alg client d d'
  | .fork pid d forks => e.fork opt alg sort oracle client pid d forks
  | .finish pid => e.finish alg client pid

def run (e : Exploration P F) : List Move → Option (Exploration P F)
  | [] => some e
  | move :: moves => (e.step opt alg sort oracle client move).bind fun e => run e moves

/-- A running worker has verified the message. The processes of the stopped workers are
killed, and the worker's goes on with its features reset, which are those of the snapshot
that it leaves behind and which its next request copies to its slot. -/
def success (e : Exploration P F) (r : Round F) : Option (Exploration P F) := do
  let p ← e.processes.find? (·.1 = r.pid)
  let t ← client.tree.subtree p.2
  match t with
  | .branch _ => none
  | .done =>
    if opt.verTestType ≠ .VERIFY then none
    else do
      let m ← e.manager.success opt alg r.pid r.d
      let alive := e.processes.filter fun q => q.1 ∉ e.manager.Stopped.workers.map WorkerInfo.pid
      return {
        manager := m.copy_worker_info r.pid r.snapshot.info
        processes := alive.map fun q => (q.1, if q.1 = r.pid then [] else q.2)
        explored := [] }

/-- The rounds that have ended, and the start of the next one. -/
def rounds (client : Client F) (e : Exploration P F) :
    List (Round F) → Option (Client F × Exploration P F)
  | [] => some (client, e)
  | r :: rs => do
    let e ← e.run opt alg sort oracle client r.moves
    let e ← e.success opt alg client r
    rounds (client.next r) e rs

instance (pid : ℤ) : Decidable (IsPid pid) := inferInstanceAs (Decidable (_ ∧ _))

/-- A pid that the operating system gives to a new process. -/
def Unused (e : Exploration P F) (pid : ℤ) : Prop :=
  IsPid pid ∧ pid ≠ e.manager.replay_pid ∧ pid ∉ e.processes.map Prod.fst

/-- The new processes of a move have new pids. -/
def FreshPids (e : Exploration P F) : Move → Prop
  | .schedule _ d' => ∀ pid ∈ Manager.managerPrepForReplay d', e.Unused pid
  | .fork _ _ forks => forks.Nodup ∧ ∀ pid ∈ forks, e.Unused pid
  | .finish _ => True

def FreshRun (e : Exploration P F) : List Move → Prop
  | [] => True
  | move :: moves => e.FreshPids move ∧
    ∀ e' ∈ e.step opt alg sort oracle client move, FreshRun e' moves

/-- No other worker is running when one succeeds, and the new replay process has a new pid. -/
def FreshSuccess (e : Exploration P F) (r : Round F) : Prop :=
  e.manager.Running.size ≤ 1 ∧ ∀ pid ∈ Manager.managerPrepForReplay r.d, IsPid pid ∧ pid ≠ r.pid

def FreshRounds (client : Client F) (e : Exploration P F) : List (Round F) → Prop
  | [] => True
  | r :: rs => e.FreshRun opt alg sort oracle client r.moves ∧
    ∀ e₁ ∈ e.run opt alg sort oracle client r.moves, e₁.FreshSuccess r ∧
      ∀ e₂ ∈ e₁.success opt alg client r, FreshRounds (client.next r) e₂ rs

instance (e : Exploration P F) (pid : ℤ) : Decidable (e.Unused pid) :=
  inferInstanceAs (Decidable (_ ∧ _))

instance (e : Exploration P F) (move : Move) : Decidable (e.FreshPids move) :=
  match move with
  | .schedule _ d' =>
    inferInstanceAs (Decidable (∀ pid ∈ Manager.managerPrepForReplay d', e.Unused pid))
  | .fork _ _ forks => inferInstanceAs (Decidable (forks.Nodup ∧ ∀ pid ∈ forks, e.Unused pid))
  | .finish _ => inferInstanceAs (Decidable True)

def decidableFreshRun : (moves : List Move) → (e : Exploration P F) →
    Decidable (e.FreshRun opt alg sort oracle client moves)
  | [], _ => inferInstanceAs (Decidable True)
  | move :: moves, e =>
    have (e' : Exploration P F) := decidableFreshRun moves e'
    inferInstanceAs (Decidable (e.FreshPids move ∧
      ∀ e' ∈ e.step opt alg sort oracle client move, e'.FreshRun opt alg sort oracle client moves))

instance (e : Exploration P F) (moves : List Move) :
    Decidable (e.FreshRun opt alg sort oracle client moves) :=
  decidableFreshRun opt alg sort oracle client moves e

instance (e : Exploration P F) (r : Round F) : Decidable (e.FreshSuccess r) :=
  inferInstanceAs (Decidable (_ ∧ _))

def decidableFreshRounds : (rs : List (Round F)) → (client : Client F) → (e : Exploration P F) →
    Decidable (e.FreshRounds opt alg sort oracle client rs)
  | [], _, _ => inferInstanceAs (Decidable True)
  | r :: rs, client, e =>
    have (e₂ : Exploration P F) := decidableFreshRounds rs (client.next r) e₂
    inferInstanceAs (Decidable (e.FreshRun opt alg sort oracle client r.moves ∧
      ∀ e₁ ∈ e.run opt alg sort oracle client r.moves, e₁.FreshSuccess r ∧
        ∀ e₂ ∈ e₁.success opt alg client r,
          e₂.FreshRounds opt alg sort oracle (client.next r) rs))

instance (client : Client F) (e : Exploration P F) (rs : List (Round F)) :
    Decidable (e.FreshRounds opt alg sort oracle client rs) :=
  decidableFreshRounds opt alg sort oracle rs client e

end Exploration

/-! ### What one move does -/

namespace Exploration

variable {P F : Type} [LinearOrder P]

/-- The tasks are tracked, each running worker has a process, and the replay process is none
of the workers'. -/
structure Explores (opt : Options P) (client : Client F) (e : Exploration P F) : Prop where
  slots : Manager.SlotsBelow opt e.manager
  tracked : Tracked client.tree (e.manager.tasks client) e.processes e.explored
  started : ∀ w ∈ e.manager.Running.workers, w.pid ≠ -1
  isPid : IsPid e.manager.replay_pid
  fresh : e.manager.replay_pid ∉ e.processes.map Prod.fst

variable [IntCast P] [Inhabited F] {opt : Options P}
  {alg : HeapAlgorithms (WorkerInfo.priority (P := P))}
  {sort : SortAlgorithm (WorkerInfo.priority (P := P))} {oracle : Oracle P F} {client : Client F}
  {e e' : Exploration P F}

theorem start_explores {pid manager_pid : ℤ} {d : Dinfo}
    (hempty : client.getExecutionFragment default = []) (hpid : IsPid pid)
    (hfresh : ∀ r ∈ Manager.managerPrepForReplay d, IsPid r ∧ r ≠ pid)
    (h : start opt alg pid manager_pid d = some e) : Explores opt client e := by
  obtain ⟨m, hm, h⟩ := Option.bind_eq_some_iff.mp h
  obtain rfl := Option.some.inj h
  obtain ⟨hworkers, hrunning, hmlinfo, hreplay⟩ := Manager.initial_fork_first hm
  obtain ⟨hisPid, hne⟩ := hfresh _ hreplay
  refine ⟨Manager.init_slotsBelow.extends (Manager.initial_fork_extends hm), ?_, ?_, hisPid, ?_⟩
  · apply (Tracked.start client.tree hpid).perm
    have hfrag : ∀ w, m.fragment client w = [] := by
      intro w
      rw [Manager.fragment, hmlinfo, hempty]
    have htasks := hworkers.map fun w => (w.pid, m.fragment client w)
    rw [List.map_singleton, hfrag] at htasks
    exact htasks
  · intro w hw
    rw [hrunning] at hw
    exact absurd hw List.not_mem_nil
  · simpa using hne

omit [LinearOrder P] [IntCast P] [Inhabited F] in
/-- The replay process goes through the blocks of the fragment that it is given. -/
theorem replay_path {back : Bool} {mlinfo : ℕ → F} {pinfo : ℕ} {t' : BranchTree}
    {w : Process.Walk F} (hd : client.tree.Distinct)
    (hpath : client.tree.Path (client.getExecutionFragment (mlinfo pinfo)) t')
    (hne : client.getExecutionFragment (mlinfo pinfo) ≠ [])
    (h : Process.replay client.logEvaluates back client.getExecutionFragment
      (client.snapshot.replayProcess mlinfo pinfo)
      (client.getExecutionFragment (mlinfo pinfo)).length client.tree = some w) :
    w.path = client.getExecutionFragment (mlinfo pinfo) := by
  have hat : Process.At client.getExecutionFragment (client.getExecutionFragment (mlinfo pinfo)) 0
      (client.snapshot.replayProcess mlinfo pinfo) := Process.replayProcess_at _ _ _
  generalize client.getExecutionFragment (mlinfo pinfo) = frag at hat hpath hne h
  have hready : Process.Ready back client.getExecutionFragment frag
      (client.snapshot.replayProcess mlinfo pinfo) frag := by
    cases frag with
    | nil => exact absurd rfl hne
    | cons id ids => exact ⟨[], rfl, hat⟩
  obtain ⟨w', hw', hwalked⟩ := Process.replay_walked hready hd hpath frag.length
  obtain rfl := Option.some.inj (h.symm.trans hw')
  rw [hwalked.path, List.take_length]

omit [IntCast P] [Inhabited F] in
/-- A process runs in the worker that is scheduled, which is behind the worker's blocks. -/
theorem launched_eq (hd : client.tree.Distinct) {curr : WorkerInfo P} {g : WorkerGroup P}
    {new : List (ℤ × List MLBBID)} (hpop : e.manager.Stopped.pop alg = some (curr, g))
    (hpath : ∃ t', client.tree.Path (e.manager.fragment client curr) t')
    (helided : curr.pid = -1 → e.manager.fragment client curr ≠ [])
    (h : e.launched opt alg client = some new) :
    new = if curr.pid = -1 then [(e.manager.replay_pid, e.manager.fragment client curr)]
      else [] := by
  rw [launched, hpop] at h
  simp only [Option.bind_eq_bind, Option.bind_some] at h
  split at h
  next hneg =>
    obtain ⟨w, hw, h⟩ := Option.bind_eq_some_iff.mp h
    obtain rfl := Option.some.inj h
    obtain ⟨t', hpath⟩ := hpath
    rw [if_pos hneg, replay_path hd hpath (helided hneg) hw]
    rfl
  next hpos =>
    rw [if_neg hpos]
    exact (Option.some.inj h).symm

theorem schedule_explores (he : Explores opt client e) (hback : opt.useFallBackOracle = false)
    (hd : client.tree.Distinct) {d d' : Dinfo} (hfresh : e.FreshPids (.schedule d d'))
    (h : e.schedule opt alg client d d' = some e') : Explores opt client e' := by
  obtain ⟨m, hm, h⟩ := Option.bind_eq_some_iff.mp h
  have hstarts := Manager.schedule_worker_starts hback hm
  have hslots : Manager.SlotsBelow opt m := by
    have hnot : e.manager.fallsBack opt = false := by simp [Manager.fallsBack, hback]
    have halone : Manager.Alone opt e.manager (.schedule_worker d d') := by
      intro _ hfall
      rw [hnot] at hfall
      cases hfall
    obtain hext | hres := Manager.schedule_worker_slots hm halone
    · exact he.slots.extends hext
    · exact hres.below
  split at h
  next hroom =>
    rw [if_pos hroom] at hstarts
    obtain ⟨curr, g, hpop, hs⟩ := hstarts
    obtain ⟨new, hnew, h⟩ := Option.bind_eq_some_iff.mp h
    obtain rfl := Option.some.inj h
    have htracked := he.tracked.perm hs.tasks_before.symm
    have hlaunched := launched_eq hd hpop (htracked.inTree _ List.mem_cons_self)
      (htracked.elided _ List.mem_cons_self) hnew
    have hstarted := hs.started he.started he.isPid.ne
    have hreplay := hs.replay
    have hafter := hs.tasks_after client
    -- the worker's own process goes on, or the replay process takes the worker's place
    by_cases hneg : curr.pid = -1
    · rw [Manager.launchPid, if_pos hneg] at hafter
      rw [if_pos hneg] at hlaunched hreplay
      rw [hneg] at htracked
      subst hlaunched
      obtain ⟨hisPid, hne, hnot⟩ := hfresh _ hreplay
      refine ⟨hslots, (htracked.launch he.isPid he.fresh).perm hafter, hstarted, hisPid, ?_⟩
      exact List.not_mem_cons_of_ne_of_not_mem hne hnot
    · rw [Manager.launchPid, if_neg hneg] at hafter
      rw [if_neg hneg] at hlaunched hreplay
      subst hlaunched
      refine ⟨hslots, htracked.perm hafter, hstarted, ?_, ?_⟩
      · rw [hreplay]
        exact he.isPid
      · rw [hreplay]
        exact he.fresh
  next hfull =>
    rw [if_neg hfull] at hstarts
    obtain rfl := Option.some.inj h
    subst hstarts
    exact he

omit [IntCast P] [Inhabited F] in
theorem finish_explores (he : Explores opt client e) (hd : client.tree.Distinct) {pid : ℤ}
    (h : e.finish alg client pid = some e') : Explores opt client e' := by
  obtain ⟨p, hp, h⟩ := Option.bind_eq_some_iff.mp h
  obtain ⟨t, ht, h⟩ := Option.bind_eq_some_iff.mp h
  have hpath := BranchTree.path_of_subtree ht
  cases t with
  | branch dests => cases h
  | done =>
    obtain ⟨o, hfind, h⟩ := Option.bind_eq_some_iff.mp h
    cases o with
    | none => cases h
    | some w =>
      obtain ⟨m, hm, h⟩ := Option.bind_eq_some_iff.mp h
      obtain rfl := Option.some.inj h
      obtain ⟨hpid, hreplay, hrunning, htasks⟩ :=
        Manager.abort_finishes client hfind hm
      have hne : w.pid ≠ -1 := he.started w (hrunning.subset List.mem_cons_self)
      have htracked := he.tracked.perm htasks.symm
      have hp' := htracked.process_eq hne (hpid.symm ▸ hp)
      subst hp'
      refine ⟨he.slots.extends (Manager.abort_extends hm), htracked.finish hd hpath hne, ?_, ?_, ?_⟩
      · intro v hv
        exact he.started v (hrunning.subset (List.mem_cons_of_mem _ hv))
      · rw [hreplay]
        exact he.isPid
      · intro hmem
        rw [hreplay] at hmem
        exact he.fresh ((List.erase_sublist.map _).subset hmem)

omit [Inhabited F] in
theorem fork_explores (he : Explores opt client e)
    (hrec : oracle.Records client.getExecutionFragment) (hd : client.tree.Distinct) {pid : ℤ}
    {d : Dinfo} {forks : List ℤ} (hfresh : e.FreshPids (.fork pid d forks))
    (h : e.fork opt alg sort oracle client pid d forks = some e') : Explores opt client e' := by
  obtain ⟨p, hp, h⟩ := Option.bind_eq_some_iff.mp h
  obtain ⟨t, ht, h⟩ := Option.bind_eq_some_iff.mp h
  have hpath := BranchTree.path_of_subtree ht
  cases t with
  | done => cases h
  | branch dests =>
    obtain ⟨⟨m, processes⟩, hm, h⟩ := Option.bind_eq_some_iff.mp h
    obtain rfl := Option.some.inj h
    have hslots : Manager.SlotsBelow opt m := by
      obtain ⟨d₁, d₂, d₃, o, ho, ha⟩ := Manager.forkRequest_halves hm
      exact he.slots.extends (Manager.fork_request_extends ho ha)
    have hreplay := Manager.forkRequest_replay_pid hm
    obtain ⟨requester, rest, chosen, pids, hforks⟩ :=
      Manager.forkRequest_forks hrec he.slots hm
    obtain ⟨hnodup, hunused⟩ := hfresh
    -- the requester's task is that of the process
    have hne : requester.pid ≠ -1 :=
      he.started requester (hforks.running.subset List.mem_cons_self)
    have htasks : (e.manager.tasks client).Perm
        ((requester.pid, e.manager.fragment client requester) ::
          rest.map fun w => (w.pid, e.manager.fragment client w)) := hforks.before.map _
    have htracked := he.tracked.perm htasks.symm
    rw [hforks.pid_eq] at htracked hne
    obtain rfl := htracked.process_eq hne hp
    have hfst := hforks.map_fst (e.manager.fragment client requester)
    refine ⟨hslots, ?_, ?_, ?_, ?_⟩
    · exact hforks.tracked htracked hd hpath hne hnodup fun q hq =>
        ⟨(hunused q hq).1, (hunused q hq).2.2⟩
    · intro w hw
      exact he.started w (hforks.running.subset (List.mem_cons_of_mem _ hw))
    · rw [hreplay]
      exact he.isPid
    · rw [hreplay, List.map_append, List.mem_append, hfst, not_or]
      constructor
      · intro hin
        obtain heq | hin := List.mem_cons.mp (hforks.sublist.subset hin)
        · exact he.fresh (heq ▸ List.mem_map_of_mem (htracked.process_mem hne))
        · exact (hunused _ hin).2.1 rfl
      · intro hin
        exact he.fresh ((List.erase_sublist.map _).subset hin)

/-! ### Whole rounds -/

theorem step_explores (he : Explores opt client e)
    (hrec : oracle.Records client.getExecutionFragment) (hback : opt.useFallBackOracle = false)
    (hd : client.tree.Distinct) {move : Move} (hfresh : e.FreshPids move)
    (h : e.step opt alg sort oracle client move = some e') : Explores opt client e' := by
  cases move with
  | schedule d d' => exact schedule_explores he hback hd hfresh h
  | fork pid d forks => exact fork_explores he hrec hd hfresh h
  | finish pid => exact finish_explores he hd h

theorem run_explores {moves : List Move} (he : Explores opt client e)
    (hrec : oracle.Records client.getExecutionFragment) (hback : opt.useFallBackOracle = false)
    (hd : client.tree.Distinct) (hfresh : e.FreshRun opt alg sort oracle client moves)
    (h : e.run opt alg sort oracle client moves = some e') : Explores opt client e' := by
  induction moves generalizing e with
  | nil =>
    obtain rfl := Option.some.inj h
    exact he
  | cons move moves ih =>
    obtain ⟨e₁, hstep, hrun⟩ := Option.bind_eq_some_iff.mp h
    obtain ⟨hfresh₁, hfresh⟩ := hfresh
    exact ih (step_explores he hrec hback hd hfresh₁ hstep) (hfresh e₁ hstep) hrun

omit [IntCast P] [Inhabited F] in
/-- Only the process of the worker that succeeds stays alive. -/
theorem success_alive (he : Explores opt client e) {tmp : WorkerInfo P}
    (hrunning : e.manager.Running.workers = [tmp]) :
    e.processes.filter (fun q => q.1 ∉ e.manager.Stopped.workers.map WorkerInfo.pid) =
      [(tmp.pid, e.manager.fragment client tmp)] := by
  have htracked := he.tracked
  rw [Manager.tasks, Manager.workers, List.map_append, hrunning, List.map_singleton] at htracked
  have halive := htracked.alone (he.started tmp (hrunning ▸ List.mem_cons_self))
  rwa [List.map_map] at halive

omit [IntCast P] [Inhabited F] in
theorem success_explores (he : Explores opt client e) {r : Round F} (hfresh : e.FreshSuccess r)
    (hinfo : client.getExecutionFragment r.snapshot.info = [])
    (h : e.success opt alg client r = some e') : Explores opt (client.next r) e' := by
  obtain ⟨p, hp, h⟩ := Option.bind_eq_some_iff.mp h
  obtain ⟨t, ht, h⟩ := Option.bind_eq_some_iff.mp h
  cases t with
  | branch dests => cases h
  | done =>
    dsimp only at h
    split at h
    · cases h
    next hverify =>
      obtain ⟨m, hm, h⟩ := Option.bind_eq_some_iff.mp h
      obtain rfl := Option.some.inj h
      obtain ⟨halone, hfresh⟩ := hfresh
      obtain ⟨tmp, hpid, hrunning, hstopped, hnone, hreplay⟩ :=
        Manager.success_first (not_not.mp hverify) halone hm
      obtain ⟨hisPid, hnew⟩ := hfresh _ hreplay
      have hslots : Manager.SlotsBelow opt m := by
        obtain hext | hres := Manager.success_slots hm fun _ => halone
        · exact he.slots.extends hext
        · exact hres.below
      have halive := success_alive he hrunning
      have hmem := List.mem_of_mem_filter (halive ▸ List.mem_cons_self)
      have hworkers : m.workers = [{ tmp with pinfo := opt.mlinfo_cache }] := by
        rw [Manager.workers, hstopped, hnone, List.append_nil]
      have htasks := Manager.copy_worker_info_tasks (client.next r) hworkers hpid r.snapshot.info
      rw [show (client.next r).getExecutionFragment r.snapshot.info = [] from hinfo] at htasks
      rw [halive, hpid, List.map_singleton, if_pos rfl]
      rw [Manager.copy_worker_info_eq hworkers hpid] at htasks ⊢
      refine ⟨⟨hslots.packed, hslots.lower, hslots.upper⟩, ?_, ?_, hisPid, ?_⟩
      · rw [htasks]
        exact Tracked.start r.tree (hpid ▸ he.tracked.isPid _ hmem)
      · intro w hw
        rw [hnone] at hw
        exact absurd hw List.not_mem_nil
      · simpa using hnew

theorem rounds_explores {rs : List (Round F)} {client' : Client F} (he : Explores opt client e)
    (hrec : oracle.Records client.getExecutionFragment) (hback : opt.useFallBackOracle = false)
    (hd : client.tree.Distinct)
    (hrs : ∀ r ∈ rs, r.tree.Distinct ∧ client.getExecutionFragment r.snapshot.info = [])
    (hfresh : e.FreshRounds opt alg sort oracle client rs)
    (h : e.rounds opt alg sort oracle client rs = some (client', e')) :
    Explores opt client' e' ∧ client'.tree.Distinct ∧
      client'.getExecutionFragment = client.getExecutionFragment := by
  induction rs generalizing client e with
  | nil =>
    obtain ⟨rfl, rfl⟩ := Prod.mk.inj (Option.some.inj h)
    exact ⟨he, hd, rfl⟩
  | cons r rs ih =>
    obtain ⟨e₁, hrun, h⟩ := Option.bind_eq_some_iff.mp h
    obtain ⟨e₂, hsuccess, h⟩ := Option.bind_eq_some_iff.mp h
    obtain ⟨hmoves, hfresh⟩ := hfresh
    obtain ⟨hend, hfresh⟩ := hfresh e₁ hrun
    obtain ⟨htree, hinfo⟩ := hrs r List.mem_cons_self
    have he₁ := run_explores he hrec hback hd hmoves hrun
    have he₂ := success_explores he₁ hend hinfo hsuccess
    obtain ⟨he', hd', hfrag⟩ := ih he₂ hrec htree
      (fun s hs => hrs s (List.mem_cons_of_mem _ hs)) (hfresh e₂ hsuccess) h
    exact ⟨he', hd', hfrag⟩

variable (opt alg sort oracle client)

/-- In every round of the verification, each complete path of the client has either been
explored or lies behind the blocks of exactly one worker, and the processes that are alive
are those of the workers that have one. When no worker is left, each path has been explored,
and none twice. -/
theorem round_covers {pid manager_pid : ℤ} {d : Dinfo} {rs : List (Round F)}
    {client' : Client F} {e₀ e₁ : Exploration P F} {moves : List Move}
    (hrec : oracle.Records client.getExecutionFragment)
    (hempty : client.getExecutionFragment default = []) (hback : opt.useFallBackOracle = false)
    (hd : client.tree.Distinct) (hpid : IsPid pid)
    (hreplay : ∀ r ∈ Manager.managerPrepForReplay d, IsPid r ∧ r ≠ pid)
    (hrs : ∀ r ∈ rs, r.tree.Distinct ∧ client.getExecutionFragment r.snapshot.info = [])
    (hstart : start opt alg pid manager_pid d = some e₀)
    (hrounds : e₀.FreshRounds opt alg sort oracle client rs)
    (hround : e₀.rounds opt alg sort oracle client rs = some (client', e₁))
    (hfresh : e₁.FreshRun opt alg sort oracle client' moves)
    (h : e₁.run opt alg sort oracle client' moves = some e) :
    (e.explored ++ (e.manager.tasks client').flatMap (client'.tree.under ·.2)).Perm
        client'.tree.leaves ∧
      ((e.manager.tasks client').filter (·.1 ≠ -1)).Perm e.processes ∧
      (e.manager.workers = [] →
        e.explored.Nodup ∧ ∀ ids, ids ∈ e.explored ↔ client'.tree.Path ids .done) := by
  obtain ⟨he₁, hd', hfrag⟩ := rounds_explores (start_explores hempty hpid hreplay hstart) hrec
    hback hd hrs hrounds hround
  have he := run_explores he₁ (hfrag ▸ hrec) hback hd' hfresh h
  refine ⟨?_, he.tracked.backed, ?_⟩
  · have hcovers := he.tracked.covers
    rw [Covers, List.flatMap_map] at hcovers
    exact hcovers
  · intro hnone
    have hcovers := he.tracked.covers
    rw [Manager.tasks, hnone, List.map_nil, List.map_nil] at hcovers
    have hperm := hcovers.exhausted
    constructor
    · exact hperm.nodup_iff.mpr (BranchTree.nodup_leaves hd')
    · intro ids
      rw [hperm.mem_iff, BranchTree.mem_leaves]

/-- An oracle whose features are fragments. -/
def fragmentOracle (priority : MLBBID → P) : Oracle P (List MLBBID) where
  new_predict := fun mem requester dests slots =>
    ((slots.zip dests).map fun c =>
      ⟨-1, requester.pid, requester.branches + 1, priority c.2, c.1⟩,
    fun slot => ((slots.zip dests).find? (·.1 = slot)).elim (mem slot)
      fun c => mem requester.pinfo ++ [c.2])
  lastMLBBID := fun frag => frag.getLastD 0
  pinfo_eq := fun _ _ dests slots hlen _ => by
    rw [List.map_map]
    exact List.map_fst_zip hlen.le
  label_eq := fun mem requester dests slots hlen hnodup => by
    have hfst : (slots.zip dests).map Prod.fst = slots := List.map_fst_zip hlen.le
    have hsnd : (slots.zip dests).map Prod.snd = dests := List.map_snd_zip hlen.ge
    conv_lhs => rw [← hfst]
    conv_rhs => rw [← hsnd]
    rw [List.map_map]
    apply List.map_congr_left
    intro c hc
    simp [hfst, find?_zip hnodup hc]

omit [LinearOrder P] [IntCast P] in
theorem fragmentOracle_records (priority : MLBBID → P) :
    (fragmentOracle priority).Records id where
  appends mem requester dests slots hlen hnodup _ := by
    have hfst : (slots.zip dests).map Prod.fst = slots := List.map_fst_zip hlen.le
    have hsnd : (slots.zip dests).map Prod.snd = dests := List.map_snd_zip hlen.ge
    conv_lhs => rw [← hfst]
    conv_rhs => rw [← hsnd]
    rw [List.map_map, List.map_map]
    apply List.map_congr_left
    intro c hc
    simp [fragmentOracle, hfst, find?_zip hnodup hc]
  others mem requester dests slots slot hnot := by
    have hnone : (slots.zip dests).find? (·.1 = slot) = none := by
      apply List.find?_eq_none.mpr
      intro c hc heq
      exact hnot (of_decide_eq_true heq ▸ (List.of_mem_zip hc).1)
    simp [fragmentOracle, hnone]

/-- Only the best candidate gets a process. -/
def elidingOptions : Options ℤ := { Manager.bfsOptions with forkElisionPriorityThreshold := 1 }

def twoBranches : Client (List MLBBID) where
  getExecutionFragment := id
  logEvaluates := false
  snapshot := ⟨[], false, -1, 2000⟩
  tree := .branch [(7, .branch [(3, .done), (4, .done)]), (8, .done)]

/-- The first worker's process goes on to the first destination of each branch. The second
one is replayed by the worker that succeeds, while the other two are still stopped. -/
def elidedRound : Round (List MLBBID) where
  moves := [.schedule Manager.zeroDinfo Manager.zeroDinfo, .fork 101 Manager.zeroDinfo [],
    .schedule Manager.zeroDinfo Manager.zeroDinfo, .fork 101 Manager.zeroDinfo [],
    .schedule Manager.zeroDinfo (Manager.sent [91])]
  pid := 90
  d := Manager.sent [92]
  snapshot := ⟨[], false, -1, 2000⟩
  tree := .branch [(5, .done), (7, .branch [(6, .done), (8, .done)])]

/-- All paths of the round behind, of which two are replayed. -/
def wholeRound : List Move :=
  [.schedule Manager.zeroDinfo Manager.zeroDinfo, .fork 90 Manager.zeroDinfo [],
    .schedule Manager.zeroDinfo Manager.zeroDinfo, .finish 90,
    .schedule Manager.zeroDinfo (Manager.sent [93]), .fork 92 Manager.zeroDinfo [],
    .schedule Manager.zeroDinfo Manager.zeroDinfo, .finish 92,
    .schedule Manager.zeroDinfo (Manager.sent [94]), .finish 93]

def elidedStart : Option (Exploration ℤ (List MLBBID)) :=
  start elidingOptions (insertionSort WorkerInfo.priority).heap 101 100 (Manager.sent [90])

def elidedRounds (e : Exploration ℤ (List MLBBID)) :
    Option (Client (List MLBBID) × Exploration ℤ (List MLBBID)) :=
  e.rounds elidingOptions (insertionSort WorkerInfo.priority).heap
    (insertionSort WorkerInfo.priority) (fragmentOracle fun _ => 0) twoBranches [elidedRound]

def elidedRun (client : Client (List MLBBID)) (e : Exploration ℤ (List MLBBID)) :
    Option (Exploration ℤ (List MLBBID)) :=
  e.run elidingOptions (insertionSort WorkerInfo.priority).heap
    (insertionSort WorkerInfo.priority) (fragmentOracle fun _ => 0) client wholeRound

theorem wholeRound_covers :
    ∃ e₀ client e₁ e, elidedStart = some e₀ ∧ elidedRounds e₀ = some (client, e₁) ∧
      elidedRun client e₁ = some e ∧ e.explored = [[5], [7, 6], [7, 8]] ∧ e.explored.Nodup ∧
      ∀ ids, ids ∈ e.explored ↔ client.tree.Path ids .done := by
  have hsome : ∃ e₀ e₁ e, elidedStart = some e₀ ∧
      elidedRounds e₀ = some (twoBranches.next elidedRound, e₁) ∧
      elidedRun (twoBranches.next elidedRound) e₁ = some e ∧
      e.explored = [[5], [7, 6], [7, 8]] ∧ e.manager.workers = [] ∧
      e₀.FreshRounds elidingOptions (insertionSort WorkerInfo.priority).heap
        (insertionSort WorkerInfo.priority) (fragmentOracle fun _ => 0) twoBranches [elidedRound] ∧
      e₁.FreshRun elidingOptions (insertionSort WorkerInfo.priority).heap
        (insertionSort WorkerInfo.priority) (fragmentOracle fun _ => 0)
        (twoBranches.next elidedRound) wholeRound :=
    ⟨_, _, _, rfl, rfl, rfl, rfl, rfl, by decide +kernel, by decide +kernel⟩
  obtain ⟨e₀, e₁, e, hstart, hround, hrun, hexplored, hnone, hrounds, hfresh⟩ := hsome
  have hdistinct : twoBranches.tree.Distinct :=
    Manager.distinct_pair (by decide) (Manager.distinct_pair (by decide) .done .done) .done
  have hnext : elidedRound.tree.Distinct :=
    Manager.distinct_pair (by decide) .done (Manager.distinct_pair (by decide) .done .done)
  have hpid : IsPid 101 := by decide
  have hreplay : ∀ r ∈ Manager.managerPrepForReplay (Manager.sent [90]), IsPid r ∧ r ≠ 101 := by
    decide +kernel
  have hrs : ∀ r ∈ [elidedRound], r.tree.Distinct ∧
      twoBranches.getExecutionFragment r.snapshot.info = [] := by
    simpa using ⟨hnext, rfl⟩
  have hcovers := round_covers elidingOptions _ _ (fragmentOracle fun _ => 0) twoBranches
    (fragmentOracle_records _) rfl rfl hdistinct hpid hreplay hrs hstart hrounds hround hfresh hrun
  exact ⟨e₀, _, e₁, e, hstart, hround, hrun, hexplored, hcovers.2.2 hnone⟩

end Exploration

end TaseVerifier
