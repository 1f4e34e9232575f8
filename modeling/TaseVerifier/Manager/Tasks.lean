import TaseVerifier.Manager.BranchTree
import TaseVerifier.Manager.Slots

/-! The workers as tasks: each lies behind some of the client's blocks, and goes on in a
process of its own or has to be replayed. What each of the manager's operations does to the
tasks. -/

namespace TaseVerifier

open Library Library.Frontier

/-- What the workers run. Each process of a round starts with the snapshot at the root of
the client's branches. -/
structure Client (F : Type) where
  getExecutionFragment : F → List MLBBID
  logEvaluates : Bool
  snapshot : Process F
  tree : BranchTree

/-- The oracle's features of a candidate list the requester's blocks and then its own. -/
structure Oracle.Records {P F : Type} (oracle : Oracle P F)
    (getExecutionFragment : F → List MLBBID) : Prop where
  appends : ∀ mem requester (dests : List MLBBID) (slots : List ℕ),
    slots.length = dests.length → slots.Nodup → requester.pinfo ∉ slots →
    slots.map (fun slot =>
        getExecutionFragment ((oracle.new_predict mem requester dests slots).2 slot)) =
      dests.map fun dest => getExecutionFragment (mem requester.pinfo) ++ [dest]
  others : ∀ mem requester (dests : List MLBBID) (slots : List ℕ) (slot : ℕ),
    slot ∉ slots → (oracle.new_predict mem requester dests slots).2 slot = mem slot

namespace Manager

variable {P F : Type} [LinearOrder P]

def workers (m : Manager P F) : List (WorkerInfo P) := m.Stopped.workers ++ m.Running.workers

/-- The blocks of a worker, from the features in its slot. -/
def fragment (m : Manager P F) (client : Client F) (w : WorkerInfo P) : List MLBBID :=
  client.getExecutionFragment (m.mlinfo w.pinfo)

/-- Each worker's pid and the blocks behind which it goes on. -/
def tasks (m : Manager P F) (client : Client F) : List (ℤ × List MLBBID) :=
  m.workers.map fun w => (w.pid, m.fragment client w)

end Manager

/-! ### Tasks -/

/-- The tasks of the workers cover the client's paths, and the processes that are alive are
those of the tasks that have one. -/
structure Tracked (t : BranchTree) (tasks processes : List (ℤ × List MLBBID))
    (explored : List (List MLBBID)) : Prop where
  covers : Covers t.under t.leaves explored (tasks.map Prod.snd)
  inTree : ∀ x ∈ tasks, ∃ t', t.Path x.2 t'
  elided : ∀ x ∈ tasks, x.1 = -1 → x.2 ≠ []
  backed : (tasks.filter (·.1 ≠ -1)).Perm processes
  nodup : (processes.map Prod.fst).Nodup
  isPid : ∀ p ∈ processes, IsPid p.1

section Tracked

variable {t : BranchTree} {tasks tasks' rest processes : List (ℤ × List MLBBID)}
  {explored : List (List MLBBID)} {pid : ℤ} {frag : List MLBBID}

theorem IsPid.ne (h : IsPid pid) : pid ≠ -1 := by
  rintro rfl
  exact absurd h.1 (by decide)

/-- The order of the tasks does not matter. -/
theorem Tracked.perm (h : Tracked t tasks processes explored) (hp : tasks'.Perm tasks) :
    Tracked t tasks' processes explored where
  covers := h.covers.perm (hp.map _)
  inTree x hx := h.inTree x (hp.subset hx)
  elided x hx := h.elided x (hp.subset hx)
  backed := (hp.filter _).trans h.backed
  nodup := h.nodup
  isPid := h.isPid

theorem Tracked.process_mem (h : Tracked t ((pid, frag) :: rest) processes explored)
    (hpid : pid ≠ -1) : (pid, frag) ∈ processes := by
  apply h.backed.subset
  simp [hpid]

/-- The process with the pid of a task is the task's own. -/
theorem Tracked.process_eq (h : Tracked t ((pid, frag) :: rest) processes explored)
    (hpid : pid ≠ -1) {p : ℤ × List MLBBID}
    (hp : processes.find? (·.1 = pid) = some p) : p = (pid, frag) := by
  have hfst : p.1 = pid := by simpa using List.find?_some hp
  apply List.inj_on_of_nodup_map h.nodup (List.mem_of_find?_eq_some hp) (h.process_mem hpid)
  exact hfst

/-- Without the task the process is gone as well. -/
theorem Tracked.backed_rest (h : Tracked t ((pid, frag) :: rest) processes explored)
    (hpid : pid ≠ -1) : (rest.filter (·.1 ≠ -1)).Perm (processes.erase (pid, frag)) := by
  have hcons : ((pid, frag) :: rest.filter (·.1 ≠ -1)).Perm processes := by
    have hb := h.backed
    rwa [List.filter_cons_of_pos (by simpa using hpid)] at hb
  have herase := hcons.erase (pid, frag)
  rwa [List.erase_cons_head] at herase

theorem Tracked.start (t : BranchTree) (hpid : IsPid pid) :
    Tracked t [(pid, [])] [(pid, [])] [] where
  covers := covers_start t.under_nil
  inTree x hx := by
    obtain rfl := List.mem_singleton.mp hx
    exact ⟨t, .nil t⟩
  elided x hx hneg := by
    obtain rfl := List.mem_singleton.mp hx
    exact absurd hneg hpid.ne
  backed := by
    rw [List.filter_cons_of_pos (by simpa using hpid.ne)]
    exact List.Perm.refl _
  nodup := List.nodup_singleton _
  isPid p hp := by
    obtain rfl := List.mem_singleton.mp hp
    exact hpid

/-- A task without a process gets one. -/
theorem Tracked.launch (h : Tracked t ((-1, frag) :: rest) processes explored)
    (hpid : IsPid pid) (hnew : pid ∉ processes.map Prod.fst) :
    Tracked t ((pid, frag) :: rest) ((pid, frag) :: processes) explored where
  covers := h.covers
  inTree x hx := by
    obtain rfl | hx := List.mem_cons.mp hx
    · exact h.inTree (-1, frag) List.mem_cons_self
    · exact h.inTree x (List.mem_cons_of_mem _ hx)
  elided x hx hneg := by
    obtain rfl | hx := List.mem_cons.mp hx
    · exact absurd hneg hpid.ne
    · exact h.elided x (List.mem_cons_of_mem _ hx) hneg
  backed := by
    have hb := h.backed
    rw [List.filter_cons_of_neg (by simp)] at hb
    rw [List.filter_cons_of_pos (by simpa using hpid.ne)]
    exact hb.cons _
  nodup := List.nodup_cons.mpr ⟨hnew, h.nodup⟩
  isPid := List.forall_mem_cons.mpr ⟨hpid, h.isPid⟩

/-- A task ends on a complete path. -/
theorem Tracked.finish (h : Tracked t ((pid, frag) :: rest) processes explored)
    (hd : t.Distinct) (hpath : t.Path frag .done) (hpid : pid ≠ -1) :
    Tracked t rest (processes.erase (pid, frag)) (explored ++ [frag]) where
  covers := h.covers.finish (hpath.finish hd)
  inTree x hx := h.inTree x (List.mem_cons_of_mem _ hx)
  elided x hx := h.elided x (List.mem_cons_of_mem _ hx)
  backed := h.backed_rest hpid
  nodup := h.nodup.sublist (List.erase_sublist.map _)
  isPid p hp := h.isPid p (List.mem_of_mem_erase hp)

/-- The process of the last task is left when those of the other ones are killed. -/
theorem Tracked.alone (h : Tracked t (rest ++ [(pid, frag)]) processes explored)
    (hpid : pid ≠ -1) : processes.filter (fun q => q.1 ∉ rest.map Prod.fst) = [(pid, frag)] := by
  have hb := h.backed
  rw [List.filter_append, List.filter_cons_of_pos (by simpa using hpid), List.filter_nil] at hb
  have hnodup := (hb.map Prod.fst).nodup_iff.mpr h.nodup
  rw [List.map_append, List.map_singleton, List.nodup_append] at hnodup
  have hnot : pid ∉ rest.map Prod.fst := by
    intro hin
    obtain ⟨x, hx, heq⟩ := List.mem_map.mp hin
    have hkept : x ∈ rest.filter (·.1 ≠ -1) := by simpa [heq, hpid] using hx
    exact hnodup.2.2 pid (heq ▸ List.mem_map_of_mem hkept) pid List.mem_cons_self rfl
  have hkilled : (rest.filter (·.1 ≠ -1)).filter (fun q => q.1 ∉ rest.map Prod.fst) = [] := by
    apply List.filter_eq_nil_iff.mpr
    intro x hx
    simpa using ⟨x.2, List.mem_of_mem_filter hx⟩
  have hfilter := hb.filter fun q => decide (q.1 ∉ rest.map Prod.fst)
  rw [List.filter_append, hkilled, List.nil_append,
    List.filter_cons_of_pos (by simpa using hnot), List.filter_nil] at hfilter
  exact List.perm_singleton.mp hfilter.symm

/-- A task is split at a branch, and some of its parts have a process. -/
theorem Tracked.split {dests : List (MLBBID × BranchTree)} {parts new : List (ℤ × List MLBBID)}
    (h : Tracked t ((pid, frag) :: rest) processes explored) (hd : t.Distinct)
    (hpath : t.Path frag (.branch dests)) (hpid : pid ≠ -1)
    (hparts : parts.map Prod.snd = (dests.map Prod.fst).map (frag ++ [·]))
    (hnew : (parts.filter (·.1 ≠ -1)).Perm new)
    (hnodup : ((new ++ processes.erase (pid, frag)).map Prod.fst).Nodup)
    (hisPid : ∀ p ∈ new, IsPid p.1) :
    Tracked t (rest ++ parts) (new ++ processes.erase (pid, frag)) explored where
  covers := by
    rw [List.map_append]
    apply h.covers.split
    rw [hparts, hpath.split hd]
  inTree x hx := by
    obtain hx | hx := List.mem_append.mp hx
    · exact h.inTree x (List.mem_cons_of_mem _ hx)
    · have hmem := List.mem_map_of_mem (f := Prod.snd) hx
      rw [hparts, List.map_map] at hmem
      obtain ⟨d, hmem, heq⟩ := List.mem_map.mp hmem
      refine ⟨d.2, heq ▸ hpath.trans (.cons hmem (.nil d.2))⟩
  elided x hx hneg := by
    obtain hx | hx := List.mem_append.mp hx
    · exact h.elided x (List.mem_cons_of_mem _ hx) hneg
    · have hmem := List.mem_map_of_mem (f := Prod.snd) hx
      rw [hparts] at hmem
      obtain ⟨id, -, heq⟩ := List.mem_map.mp hmem
      rw [← heq]
      exact List.append_ne_nil_of_right_ne_nil _ (List.cons_ne_nil _ _)
  backed := by
    rw [List.filter_append]
    exact ((h.backed_rest hpid).append hnew).trans List.perm_append_comm
  nodup := hnodup
  isPid p hp := by
    obtain hp | hp := List.mem_append.mp hp
    · exact hisPid p hp
    · exact h.isPid p (List.mem_of_mem_erase hp)

end Tracked

/-- The destinations that have a process, with their pids. -/
theorem assigned_perm {dests chosen : List MLBBID} {pids : List ℤ} {frag : List MLBBID}
    (hdests : dests.Nodup) (hchosen : chosen.Nodup) (hsub : ∀ id ∈ chosen, id ∈ dests)
    (hlen : pids.length = chosen.length) (hpids : ∀ p ∈ pids, IsPid p) (hnodup : pids.Nodup) :
    ((dests.map fun dest => (assigned chosen pids dest, frag ++ [dest])).filter (·.1 ≠ -1)).Perm
      ((pids.zip chosen).map fun q => (q.1, frag ++ [q.2])) := by
  have hleft : (dests.map fun dest => (assigned chosen pids dest, frag ++ [dest])).Nodup := by
    apply hdests.map
    intro id id' heq
    simpa using (Prod.mk.inj heq).2
  have hright : ((pids.zip chosen).map fun q => (q.1, frag ++ [q.2])).Nodup := by
    apply List.Nodup.of_map Prod.fst
    rw [List.map_map]
    change ((pids.zip chosen).map Prod.fst).Nodup
    rwa [List.map_fst_zip hlen.le]
  apply (List.perm_ext_iff_of_nodup (hleft.filter _) hright).mpr
  intro x
  simp only [List.mem_filter, List.mem_map, decide_eq_true_eq]
  constructor
  · rintro ⟨⟨dest, -, rfl⟩, hne⟩
    have hmem : dest ∈ chosen := by
      by_contra hnot
      exact hne (assigned_of_notMem hnot)
    exact ⟨_, assigned_of_mem hlen hpids hmem, rfl⟩
  · rintro ⟨⟨pid, id⟩, hmem, rfl⟩
    have hzip := List.of_mem_zip hmem
    have heq := (assigned_eq_iff hlen hpids hnodup hchosen hmem id).mpr rfl
    exact ⟨⟨id, hsub id hzip.2, by rw [heq]⟩, (hpids pid hzip.1).ne⟩

theorem find?_zip {α β : Type} [DecidableEq α] {l : List α} {l' : List β} (h : l.Nodup) {c : α × β}
    (hc : c ∈ l.zip l') : (l.zip l').find? (·.1 = c.1) = some c := by
  have hsome : ((l.zip l').find? (·.1 = c.1)).isSome :=
    List.find?_isSome.mpr ⟨c, hc, by simp⟩
  obtain ⟨e, he⟩ := Option.isSome_iff_exists.mp hsome
  have hfst : e.1 = c.1 := by simpa using List.find?_some he
  have hmem : (c.1, e.2) ∈ l.zip l' := hfst ▸ List.mem_of_find?_eq_some he
  rw [he, Prod.ext hfst (snd_eq_of_mem_zip h hmem hc)]

/-- The processes of a request with the other ones. -/
theorem nodup_forked {pid : ℤ} {frag : List MLBBID} {processes new : List (ℤ × List MLBBID)}
    {pids forks : List ℤ} (hmem : (pid, frag) ∈ processes) (hnodup : (processes.map Prod.fst).Nodup)
    (hforks : forks.Nodup) (hunused : ∀ q ∈ forks, q ∉ processes.map Prod.fst)
    (hsub : pids.Sublist (pid :: forks)) (hnew : new.map Prod.fst = pids) :
    ((new ++ processes.erase (pid, frag)).map Prod.fst).Nodup := by
  have hperm := (List.perm_cons_erase hmem).map Prod.fst
  have hcons := hperm.nodup_iff.mp hnodup
  obtain ⟨hnot, hrest⟩ := List.nodup_cons.mp hcons
  have hpid : pid ∈ processes.map Prod.fst := List.mem_map_of_mem hmem
  rw [List.map_append, hnew, List.nodup_append]
  refine ⟨?_, hrest, ?_⟩
  · apply List.Nodup.sublist hsub
    exact List.nodup_cons.mpr ⟨fun hin => hunused pid hin hpid, hforks⟩
  · rintro q hq q' hq' rfl
    obtain rfl | hq := List.mem_cons.mp (hsub.subset hq)
    · exact hnot hq'
    · exact hunused q hq (hperm.symm.subset (List.mem_cons_of_mem _ hq'))

/-! ### What the manager does to the tasks -/

namespace Manager

variable {P F : Type} [LinearOrder P] {opt : Options P}
  {alg : HeapAlgorithms (WorkerInfo.priority (P := P))}
  {sort : SortAlgorithm (WorkerInfo.priority (P := P))} {oracle : Oracle P F} {client : Client F}
  {m m' : Manager P F}

/-- The pid under which a worker runs. -/
def launchPid (m : Manager P F) (curr : WorkerInfo P) : ℤ :=
  if curr.pid = -1 then m.replay_pid else curr.pid

/-- A worker goes from `Stopped` to `Running`. -/
structure Starts (m m' : Manager P F) (curr : WorkerInfo P) (rest : List (WorkerInfo P))
    (d' : Dinfo) : Prop where
  mlinfo : m'.mlinfo = m.mlinfo
  before : m.workers.Perm (curr :: rest)
  after : m'.workers.Perm ({ curr with pid := m.launchPid curr } :: rest)
  running : m'.Running.workers.Perm
    (m.Running.workers ++ [{ curr with pid := m.launchPid curr }])
  replay : if curr.pid = -1 then managerPrepForReplay d' = some m'.replay_pid
    else m'.replay_pid = m.replay_pid

/-- The worker that is popped from `Stopped` is pushed to `Running`. -/
theorem Starts.of_push {curr : WorkerInfo P} {g : WorkerGroup P} {d' : Dinfo}
    (hpop : m.Stopped.pop alg = some (curr, g)) (hstopped : m'.Stopped = g)
    (hrunning : m'.Running = m.Running.push alg { curr with pid := m.launchPid curr })
    (hmlinfo : m'.mlinfo = m.mlinfo)
    (hreplay : if curr.pid = -1 then managerPrepForReplay d' = some m'.replay_pid
      else m'.replay_pid = m.replay_pid) :
    Starts m m' curr (g.workers ++ m.Running.workers) d' where
  mlinfo := hmlinfo
  before := (WorkerGroup.pop_workers hpop).symm.append_right _
  after := by
    have hpush := WorkerGroup.push_workers alg m.Running { curr with pid := m.launchPid curr }
    rw [workers, hstopped, hrunning]
    apply (hpush.append_left _).trans
    rw [← List.append_assoc]
    exact List.perm_append_singleton _ _
  running := by
    rw [hrunning]
    exact WorkerGroup.push_workers alg _ _
  replay := hreplay

theorem startWorker_starts {m₁ : Manager P F} {curr : WorkerInfo P} {g : WorkerGroup P} {d' : Dinfo}
    (h : m₁.startWorker alg curr d' = some m') (hpop : m.Stopped.pop alg = some (curr, g))
    (hstopped : m₁.Stopped = g) (hrunning : m₁.Running = m.Running)
    (hreplay : m₁.replay_pid = m.replay_pid) (hmlinfo : m₁.mlinfo = m.mlinfo) :
    Starts m m' curr (g.workers ++ m.Running.workers) d' := by
  unfold startWorker at h
  split at h
  next hneg =>
    obtain ⟨⟨pid, m₂⟩, hsetup, h⟩ := Option.bind_eq_some_iff.mp h
    obtain rfl := Option.some.inj h
    unfold setup_for_replay at hsetup
    split at hsetup
    · cases hsetup
    · split at hsetup
      · cases hsetup
      · obtain ⟨r, hr, hsetup⟩ := Option.bind_eq_some_iff.mp hsetup
        obtain ⟨rfl, rfl⟩ := Prod.mk.inj (Option.some.inj hsetup)
        -- the worker runs as the replay process, and the next one has been prepared
        apply Starts.of_push hpop
        · exact hstopped
        · rw [launchPid, if_pos hneg, ← hreplay, ← hrunning]
        · exact hmlinfo
        · rw [if_pos hneg]
          exact hr
  next hpos =>
    obtain rfl := Option.some.inj h
    apply Starts.of_push hpop
    · exact hstopped
    · rw [launchPid, if_neg hpos, ← hrunning]
    · exact hmlinfo
    · rw [if_neg hpos]
      exact hreplay

theorem Starts.tasks_before {curr : WorkerInfo P} {rest : List (WorkerInfo P)} {d' : Dinfo}
    (h : Starts m m' curr rest d') :
    (m.tasks client).Perm ((curr.pid, m.fragment client curr) ::
      rest.map fun w => (w.pid, m.fragment client w)) :=
  h.before.map _

theorem Starts.tasks_after (client : Client F) {curr : WorkerInfo P} {rest : List (WorkerInfo P)}
    {d' : Dinfo} (h : Starts m m' curr rest d') :
    (m'.tasks client).Perm ((m.launchPid curr, m.fragment client curr) ::
      rest.map fun w => (w.pid, m.fragment client w)) := by
  have hfrag : m'.fragment client = m.fragment client := by
    funext w
    rw [fragment, fragment, h.mlinfo]
  rw [tasks, hfrag]
  exact h.after.map fun w => (w.pid, m.fragment client w)

/-- Every running worker has a process, the one that is started as well. -/
theorem Starts.started {curr : WorkerInfo P} {rest : List (WorkerInfo P)} {d' : Dinfo}
    (h : Starts m m' curr rest d') (hstarted : ∀ w ∈ m.Running.workers, w.pid ≠ -1)
    (hreplay : m.replay_pid ≠ -1) : ∀ w ∈ m'.Running.workers, w.pid ≠ -1 := by
  intro w hw
  obtain hw | hw := List.mem_append.mp (h.running.subset hw)
  · exact hstarted w hw
  · obtain rfl := List.mem_singleton.mp hw
    show m.launchPid curr ≠ -1
    unfold launchPid
    split
    next => exact hreplay
    next hpos => exact hpos

variable [IntCast P] [Inhabited F]

/-- Without the backup oracle a worker is started where there is room for it, and nothing
happens elsewhere. -/
theorem schedule_worker_starts {d d' : Dinfo} (hback : opt.useFallBackOracle = false)
    (h : m.schedule_worker opt alg d d' = some m') :
    if m.Running.size < opt.maxRunning then
      ∃ curr g, m.Stopped.pop alg = some (curr, g) ∧
        Starts m m' curr (g.workers ++ m.Running.workers) d'
    else m' = m := by
  unfold schedule_worker at h
  split at h
  next hroom =>
    rw [if_pos hroom]
    obtain ⟨m₁, hfall, h⟩ := Option.bind_eq_some_iff.mp h
    have hnot : ¬ m.fallsBack opt = true := by simp [fallsBack, hback]
    rw [fallBack, if_neg hnot] at hfall
    obtain rfl := Option.some.inj hfall
    obtain ⟨⟨curr, g⟩, hpop, h⟩ := Option.bind_eq_some_iff.mp h
    have hstart : startWorker alg { m with Stopped := g, pickedWorkers := m.pickedWorkers + 1 }
        curr d' = some m' := h
    exact ⟨curr, g, hpop, startWorker_starts hstart hpop rfl rfl rfl rfl⟩
  next hfull =>
    rw [if_neg hfull]
    exact (Option.some.inj h).symm

/-! A fork request -/

omit [IntCast P] [Inhabited F] in
/-- The features that the oracle writes for the candidates, in new slots. -/
theorem predictBranches_mlinfo {pid : ℤ} {dests : List MLBBID} {requester : WorkerInfo P}
    {candidates : List (WorkerInfo P)} {m₁ : Manager P F}
    (h : m.predictBranches opt oracle pid dests = some (requester, candidates, m₁)) :
    m₁.replay_pid = m.replay_pid ∧ m₁.mlinfo = (oracle.new_predict m.mlinfo requester dests
      (ranges opt.pinfo_bytes m.next_open_mlinfo_slot dests.length)).2 := by
  obtain ⟨o, hfind, h⟩ := Option.bind_eq_some_iff.mp h
  cases o with
  | none => cases h
  | some w =>
    obtain ⟨⟨slots, m₂⟩, hslots, h⟩ := Option.bind_eq_some_iff.mp h
    obtain ⟨rfl, heq⟩ := Prod.mk.inj (Option.some.inj h)
    obtain ⟨rfl, rfl⟩ := Prod.mk.inj heq
    obtain ⟨rfl, rfl, -⟩ := getNewSlots_eq hslots
    exact ⟨rfl, rfl⟩

omit [Inhabited F] in
/-- The two halves of a request. -/
theorem forkRequest_halves {d : Dinfo} {pid : ℤ} {dests : List MLBBID} {forks : List ℤ}
    {processes : List (ℤ × MLBBID)}
    (h : m.forkRequest opt alg sort oracle d pid dests forks = some (m', processes)) :
    ∃ d₁ d₂ d₃ o, m.offerBranches opt sort oracle pid d₁ = some (o, d₂) ∧
      assignBranches opt alg o d₃ = some m' := by
  obtain ⟨d₁, -, h⟩ := Option.bind_eq_some_iff.mp h
  obtain ⟨⟨o, d₂⟩, ho, h⟩ := Option.bind_eq_some_iff.mp h
  obtain ⟨⟨procs, d₃⟩, -, h⟩ := Option.bind_eq_some_iff.mp h
  obtain ⟨m₂, ha, h⟩ := Option.bind_eq_some_iff.mp h
  obtain ⟨rfl, -⟩ := Prod.mk.inj (Option.some.inj h)
  exact ⟨d₁, d₂, d₃, o, ho, ha⟩

omit [Inhabited F] in
theorem forkRequest_replay_pid {d : Dinfo} {pid : ℤ} {dests : List MLBBID} {forks : List ℤ}
    {processes : List (ℤ × MLBBID)}
    (h : m.forkRequest opt alg sort oracle d pid dests forks = some (m', processes)) :
    m'.replay_pid = m.replay_pid := by
  obtain ⟨d₁, d₂, d₃, o, ho, ha⟩ := forkRequest_halves h
  obtain ⟨pids, r, -, -, rfl⟩ := assignBranches_eq ha
  obtain ⟨-, hpredict, -, -⟩ := offerBranches_eq ho
  exact (predictBranches_mlinfo hpredict).1

omit [IntCast P] [Inhabited F] in
/-- The candidates with their pids, as tasks. -/
theorem entries_tasks {candidates : List (WorkerInfo P)} {dests chosen : List MLBBID}
    {pids : List ℤ} {frag : List MLBBID}
    (hfrag : candidates.map (m.fragment client) = dests.map (frag ++ [·])) :
    (entries candidates dests chosen pids).map (fun w => (w.pid, m.fragment client w)) =
      dests.map fun dest => (assigned chosen pids dest, frag ++ [dest]) := by
  have hlen : candidates.length = dests.length := by
    have hmap := congrArg List.length hfrag
    rwa [List.length_map, List.length_map] at hmap
  have hfst : (candidates.zip dests).map Prod.fst = candidates := List.map_fst_zip hlen.le
  have hsnd : (candidates.zip dests).map Prod.snd = dests := List.map_snd_zip hlen.ge
  have heq : (candidates.zip dests).map (m.fragment client ∘ Prod.fst) =
      (candidates.zip dests).map ((frag ++ [·]) ∘ Prod.snd) := by
    rw [← List.map_map, ← List.map_map, hfst, hsnd]
    exact hfrag
  conv_rhs => rw [← hsnd]
  rw [entries, List.map_map, List.map_map]
  apply List.map_congr_left
  intro c hc
  exact Prod.ext rfl (List.map_inj_left.mp heq c hc)

/-- The requester's task is replaced by one for each destination, and the blocks that are to
have a process are those of the processes. -/
structure Forks (client : Client F) (m m' : Manager P F) (pid : ℤ) (dests : List MLBBID)
    (forks : List ℤ) (processes : List (ℤ × MLBBID)) (requester : WorkerInfo P)
    (rest : List (WorkerInfo P)) (chosen : List MLBBID) (pids : List ℤ) : Prop where
  pid_eq : requester.pid = pid
  running : (requester :: m'.Running.workers).Perm m.Running.workers
  before : m.workers.Perm (requester :: rest)
  after : (m'.tasks client).Perm (rest.map (fun w => (w.pid, m.fragment client w)) ++
    dests.map fun dest => (assigned chosen pids dest, m.fragment client requester ++ [dest]))
  subset : ∀ id ∈ chosen, id ∈ dests
  nodup : dests.Nodup → chosen.Nodup
  sublist : pids.Sublist (pid :: forks)
  length_eq : pids.length = chosen.length
  processes_eq : processes = pids.zip chosen

omit [Inhabited F] in
theorem forkRequest_forks {d : Dinfo} {pid : ℤ} {dests : List MLBBID} {forks : List ℤ}
    {processes : List (ℤ × MLBBID)} (hrec : oracle.Records client.getExecutionFragment)
    (hslots : SlotsBelow opt m)
    (h : m.forkRequest opt alg sort oracle d pid dests forks = some (m', processes)) :
    ∃ requester rest chosen pids,
      Forks client m m' pid dests forks processes requester rest chosen pids := by
  obtain ⟨requester, candidates, m₁, chosen, pids, hpredict, hchoose, ⟨hsub, hlen⟩, hprocs,
    hrunning, hmem, hstopped⟩ := forkRequest_eq h
  obtain ⟨hfind, -, -, hlabel, hpinfo, -⟩ := predictBranches_eq hpredict
  obtain ⟨-, hmlinfo⟩ := predictBranches_mlinfo hpredict
  have hmem' : m'.mlinfo = _ := hmem.trans hmlinfo
  have hbefore : m.workers.Perm (requester :: (m.Stopped.workers ++ m'.Running.workers)) :=
    (hrunning.symm.append_left _).trans List.perm_middle
  -- the workers that stay keep their features, for the candidates have new slots
  have hold : ∀ w ∈ m.workers, w.pinfo ∉
      ranges opt.pinfo_bytes m.next_open_mlinfo_slot dests.length := by
    intro w hw
    apply hslots.packed.notMem_ranges opt.pinfo_pos
    rw [held, ← List.map_append]
    exact List.mem_map_of_mem hw
  have hkept : ∀ w ∈ m.workers, m'.fragment client w = m.fragment client w := by
    intro w hw
    rw [fragment, fragment, hmem', hrec.others _ _ _ _ _ (hold w hw)]
  have hnew : candidates.map (m'.fragment client) =
      dests.map (m.fragment client requester ++ [·]) := by
    have happ := hrec.appends m.mlinfo requester dests _ (length_ranges _ _ _)
      (nodup_ranges opt.pinfo_pos _ _) (hold requester (hbefore.symm.subset List.mem_cons_self))
    rw [← hmem', ← hpinfo, List.map_map] at happ
    exact happ
  refine ⟨requester, m.Stopped.workers ++ m'.Running.workers, chosen, pids,
    (WorkerGroup.find_workers hfind).1, hrunning, hbefore, ?_, ?_, ?_, hsub, hlen, hprocs⟩
  · have hperm : m'.workers.Perm ((m.Stopped.workers ++ m'.Running.workers) ++
        entries candidates dests chosen pids) := by
      apply (hstopped.append_right _).trans
      rw [List.append_assoc, List.append_assoc]
      exact List.perm_append_comm.append_left _
    have hmap := hperm.map fun w => (w.pid, m'.fragment client w)
    rw [List.map_append, entries_tasks hnew] at hmap
    apply hmap.trans
    apply List.Perm.append_right
    apply List.Perm.of_eq
    apply List.map_congr_left
    intro w hw
    rw [hkept w (hbefore.symm.subset (List.mem_cons_of_mem _ hw))]
  · intro id hid
    obtain ⟨c, hc, -, rfl⟩ := (mem_chosen hchoose id).mp hid
    rw [← hlabel]
    exact List.mem_map_of_mem hc
  · intro hnodup
    apply chosen_nodup hchoose hlabel
    exact fun id hid => (backedOnce_iff hchoose hlabel).mp (backedOnce_of_nodup hnodup) id hid

omit [IntCast P] [Inhabited F] in
/-- The processes of a request, each behind its own destination. -/
theorem Forks.map_fst {pid : ℤ} {dests chosen : List MLBBID}
    {forks pids : List ℤ} {processes : List (ℤ × MLBBID)} {requester : WorkerInfo P}
    {rest : List (WorkerInfo P)}
    (h : Forks client m m' pid dests forks processes requester rest chosen pids)
    (frag : List MLBBID) : (processes.map fun q => (q.1, frag ++ [q.2])).map Prod.fst = pids := by
  rw [h.processes_eq, List.map_map]
  exact List.map_fst_zip h.length_eq.le

omit [IntCast P] [Inhabited F] in
/-- The requester's task is split, where the new processes have new pids. -/
theorem Forks.tracked {pid : ℤ} {dests : List (MLBBID × BranchTree)}
    {chosen : List MLBBID} {forks pids : List ℤ} {processes : List (ℤ × MLBBID)}
    {requester : WorkerInfo P} {rest : List (WorkerInfo P)} {live : List (ℤ × List MLBBID)}
    {explored : List (List MLBBID)}
    (h : Forks client m m' pid (dests.map Prod.fst) forks processes requester rest chosen
      pids)
    (ht : Tracked client.tree ((pid, m.fragment client requester) ::
      rest.map fun w => (w.pid, m.fragment client w)) live explored) (hd : client.tree.Distinct)
    (hpath : client.tree.Path (m.fragment client requester) (.branch dests)) (hne : pid ≠ -1)
    (hforks : forks.Nodup) (hunused : ∀ q ∈ forks, IsPid q ∧ q ∉ live.map Prod.fst) :
    Tracked client.tree (m'.tasks client)
      ((processes.map fun q => (q.1, m.fragment client requester ++ [q.2])) ++
        live.erase (pid, m.fragment client requester)) explored := by
  have hmem := ht.process_mem hne
  have hdests : (dests.map Prod.fst).Nodup := by
    cases hpath.distinct hd with
    | branch hn _ => exact hn
  have hpid : pid ∉ forks := by
    intro hin
    exact (hunused pid hin).2 (List.mem_map_of_mem hmem)
  have hnodup : pids.Nodup := (List.nodup_cons.mpr ⟨hpid, hforks⟩).sublist h.sublist
  have hisPid : ∀ q ∈ pids, IsPid q := by
    intro q hq
    obtain rfl | hq := List.mem_cons.mp (h.sublist.subset hq)
    · exact ht.isPid _ hmem
    · exact (hunused q hq).1
  refine Tracked.perm ?_ h.after
  apply ht.split hd hpath hne
  · rw [List.map_map]
    rfl
  · rw [h.processes_eq]
    exact assigned_perm hdests (h.nodup hdests) h.subset h.length_eq hisPid hnodup
  · exact nodup_forked hmem ht.nodup hforks (fun q hq => (hunused q hq).2) h.sublist
      (h.map_fst _)
  · intro x hx
    apply hisPid
    rw [← h.map_fst (m.fragment client requester)]
    exact List.mem_map_of_mem hx

omit [IntCast P] [Inhabited F] in
/-- A running worker that ends leaves its group. -/
theorem abort_finishes (client : Client F) {pid : ℤ} {w : WorkerInfo P}
    (hfind : m.Running.find pid = some (some w)) (h : m.abort alg pid = some m') :
    w.pid = pid ∧ m'.replay_pid = m.replay_pid ∧ (w :: m'.Running.workers).Perm m.Running.workers ∧
      (m.tasks client).Perm ((w.pid, m.fragment client w) :: m'.tasks client) := by
  obtain ⟨⟨v, g⟩, hget, h⟩ := Option.bind_eq_some_iff.mp h
  obtain rfl := Option.some.inj h
  obtain rfl : v = some w := WorkerGroup.get_of_find hfind hget
  obtain ⟨hpid, hperm⟩ := WorkerGroup.get_workers hget
  refine ⟨hpid, rfl, hperm, ?_⟩
  have hworkers : m.workers.Perm (w :: (m.Stopped.workers ++ g.workers)) :=
    (hperm.symm.append_left _).trans List.perm_middle
  exact hworkers.map _

/-- The first worker is the only one, and nothing is in its slot. -/
theorem initial_fork_first {pid manager_pid : ℤ} {d : Dinfo}
    (h : (init_structures opt).initial_fork opt alg pid manager_pid d = some m) :
    m.workers.Perm [⟨pid, manager_pid, 0, ((-1 : ℤ) : P), opt.mlinfo_cache⟩] ∧
      m.Running.workers = [] ∧ (m.mlinfo = fun _ => default) ∧
      managerPrepForReplay d = some m.replay_pid := by
  obtain ⟨⟨slot, m₁⟩, hslot, h⟩ := Option.bind_eq_some_iff.mp h
  obtain ⟨replay, hreplay, h⟩ := Option.bind_eq_some_iff.mp h
  obtain rfl := Option.some.inj h
  obtain ⟨rfl, rfl, -⟩ := getNewSlot_eq hslot
  have hrunning : (init_structures opt : Manager P F).Running.workers = [] :=
    WorkerGroup.workers_new _
  have hstopped : (init_structures opt : Manager P F).Stopped.workers = [] :=
    WorkerGroup.workers_new _
  refine ⟨?_, hrunning, rfl, hreplay⟩
  have hpush := WorkerGroup.push_workers alg (init_structures opt : Manager P F).Stopped
    ⟨pid, manager_pid, 0, ((-1 : ℤ) : P), opt.mlinfo_cache⟩
  rw [hstopped, List.nil_append] at hpush
  rw [workers]
  apply (hpush.append_right _).trans
  rw [hrunning, List.append_nil]

omit [IntCast P] [Inhabited F] in
/-- In a verification the worker that succeeds is the only one afterwards, in the first
slot, when no other worker is running. -/
theorem success_first {pid : ℤ} {d : Dinfo} (hverify : opt.verTestType = .VERIFY)
    (halone : m.Running.size ≤ 1) (h : m.success opt alg pid d = some m') :
    ∃ tmp, tmp.pid = pid ∧ m.Running.workers = [tmp] ∧
      m'.Stopped.workers = [{ tmp with pinfo := opt.mlinfo_cache }] ∧ m'.Running.workers = [] ∧
      managerPrepForReplay d = some m'.replay_pid := by
  unfold success at h
  rw [hverify] at h
  dsimp only at h
  split at h
  · cases h
  · split at h
    · cases h
    · obtain ⟨⟨v, g⟩, hget, h⟩ := Option.bind_eq_some_iff.mp h
      cases v with
      | none => cases h
      | some tmp =>
        obtain ⟨r, hr, h⟩ := Option.bind_eq_some_iff.mp h
        obtain ⟨⟨slot, m₁⟩, hslot, h⟩ := Option.bind_eq_some_iff.mp h
        obtain rfl := Option.some.inj h
        obtain ⟨rfl, rfl, -⟩ := getNewSlot_eq hslot
        obtain ⟨hpid, hperm⟩ := WorkerGroup.get_workers hget
        have hlen := hperm.length_eq
        rw [List.length_cons] at hlen
        rw [WorkerGroup.size_eq] at halone
        have hnil : g.workers = [] := List.length_eq_zero_iff.mp (by omega)
        rw [hnil] at hperm
        have hpush := WorkerGroup.push_workers alg m.Stopped.cleanUp
          { tmp with pinfo := opt.mlinfo_cache }
        rw [WorkerGroup.workers_cleanUp, List.nil_append] at hpush
        exact ⟨tmp, hpid, List.perm_singleton.mp hperm.symm, List.perm_singleton.mp hpush, hnil, hr⟩

/-- The features of a process, in the slot of its worker. -/
def copy_worker_info (m : Manager P F) (pid : ℤ) (info : F) : Manager P F :=
  match m.workers.find? (·.pid = pid) with
  | some w => { m with mlinfo := Function.update m.mlinfo w.pinfo info }
  | none => m

omit [IntCast P] [Inhabited F] in
theorem copy_worker_info_eq {w : WorkerInfo P} {pid : ℤ} (hw : m.workers = [w]) (hpid : w.pid = pid)
    (info : F) : m.copy_worker_info pid info =
      { m with mlinfo := Function.update m.mlinfo w.pinfo info } := by
  simp [copy_worker_info, hw, hpid]

omit [IntCast P] [Inhabited F] in
/-- The only worker goes on behind the blocks that its process lists. -/
theorem copy_worker_info_tasks (client : Client F) {w : WorkerInfo P} {pid : ℤ}
    (hw : m.workers = [w]) (hpid : w.pid = pid) (info : F) :
    (m.copy_worker_info pid info).tasks client = [(pid, client.getExecutionFragment info)] := by
  have hworkers : (m.copy_worker_info pid info).workers = [w] := by
    rw [copy_worker_info_eq hw hpid]
    exact hw
  rw [tasks, hworkers, List.map_singleton, fragment, copy_worker_info_eq hw hpid, hpid]
  simp

end Manager

end TaseVerifier
