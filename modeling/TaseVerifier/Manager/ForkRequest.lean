import Mathlib.Data.List.Count
import Mathlib.Data.List.Zip
import TaseVerifier.Manager.State

/-! A fork request, from the worker that reaches a symbolic branch to the workers that the
manager has in the end. The manager chooses the destinations that are to have a process, the
worker forks one for each of them but the first, and the manager assigns the pids. -/

namespace TaseVerifier

open Library

/-! ### The worker -/

/-- The position of the first such value; there is an exit when there is none. -/
def getIdxInVec (vals : List MLBBID) (val : MLBBID) : Option ℕ := vals.findIdx? (· = val)

/-- The worker and the processes that it forks, each with the block at which it resumes,
and the buffer with their pids. The pids are given in the order of the forks. -/
def forkBranches (self : ℤ) (forks : List ℤ) (d : Dinfo) :
    Option (List (ℤ × MLBBID) × Dinfo) := do
  let BBIDsToFork ← d.receive_vec_dinfo
  if forks.length < BBIDsToFork.length - 1 then none
  else
    let forkedPIDs := self :: forks.take (BBIDsToFork.length - 1)
    let d ← d.send_vec_dinfo (forkedPIDs.map ofPid)
    return (forkedPIDs.zip BBIDsToFork, d)

/-! ### The manager -/

/-- `std::map::insert` keeps the value of a key that is present. -/
def insertPid (map : List (MLBBID × BitVec 64)) (e : MLBBID × BitVec 64) :
    List (MLBBID × BitVec 64) :=
  if (map.find? (·.1 = e.1)).isSome then map else map ++ [e]

/-- The pid of a destination; `-1` when it has no process. -/
def pidOf (BBIDToPID : List (MLBBID × BitVec 64)) (dest : MLBBID) : ℤ :=
  match BBIDToPID.find? (·.1 = dest) with
  | some e => toPid e.2
  | none => -1

/-! ### Destinations and pids -/

theorem find?_insertPid (map : List (MLBBID × BitVec 64)) (e : MLBBID × BitVec 64)
    (dest : MLBBID) :
    (insertPid map e).find? (·.1 = dest) =
      (map.find? (·.1 = dest)).or ([e].find? (·.1 = dest)) := by
  unfold insertPid
  split
  next h =>
    by_cases hd : e.1 = dest
    · subst hd
      rw [Option.or_of_isSome h]
    · simp [hd]
  next => exact List.find?_append

/-- The first pid of a destination is the one that is kept. -/
theorem find?_foldl_insertPid (l map : List (MLBBID × BitVec 64)) (dest : MLBBID) :
    (l.foldl insertPid map).find? (·.1 = dest) =
      (map.find? (·.1 = dest)).or (l.find? (·.1 = dest)) := by
  induction l generalizing map with
  | nil => simp
  | cons e l ih =>
    rw [List.foldl_cons, ih, find?_insertPid, Option.or_assoc]
    congr 1
    change _ = ([e] ++ l).find? _
    rw [List.find?_append]

theorem getIdxInVec_eq {dests : List MLBBID} {dest : MLBBID} {j : ℕ}
    (hone : dests.count dest = 1) (hj : dests[j]? = some dest) :
    getIdxInVec dests dest = some j := by
  induction dests generalizing j with
  | nil => simp at hj
  | cons x dests ih =>
    unfold getIdxInVec at ih ⊢
    rw [List.findIdx?_cons]
    by_cases hx : x = dest
    · subst hx
      rw [List.count_cons_self] at hone
      have hnot : x ∉ dests := List.count_eq_zero.mp (by omega)
      cases j with
      | zero => simp
      | succ j =>
        rw [List.getElem?_cons_succ] at hj
        exact absurd (List.mem_of_getElem? hj) hnot
    · rw [List.count_cons_of_ne hx] at hone
      cases j with
      | zero => exact absurd (Option.some.inj hj) hx
      | succ j => simp [hx, ih hone hj]

theorem running_once_iff {P : Type} {requester : WorkerInfo P} {l l' : List (WorkerInfo P)}
    {pid : ℤ} (hperm : (requester :: l').Perm l)
    (hpid : requester.pid = pid) :
    (∀ w ∈ l', w.pid ≠ pid) ↔ l.countP (·.pid = pid) = 1 := by
  rw [← hperm.countP_eq, List.countP_cons_of_pos (by simpa using hpid), Nat.add_eq_right,
    List.countP_eq_zero]
  simp

section Assigned

variable {chosen : List MLBBID} {pids : List ℤ}

/-- The pid of a destination under the chosen blocks and their pids. -/
def assigned (chosen : List MLBBID) (pids : List ℤ) (dest : MLBBID) : ℤ :=
  pidOf ((chosen.zip (pids.map ofPid)).foldl insertPid []) dest

theorem assigned_of_notMem {dest : MLBBID} (h : dest ∉ chosen) : assigned chosen pids dest = -1 := by
  have hnone : (chosen.zip (pids.map ofPid)).find? (·.1 = dest) = none := by
    refine List.find?_eq_none.mpr fun e he => ?_
    simp only [decide_eq_true_eq]
    exact fun heq => h (heq ▸ (List.of_mem_zip he).1)
  rw [assigned, pidOf, find?_foldl_insertPid, hnone]
  rfl

/-- A chosen destination has the pid of its first occurrence. -/
theorem assigned_of_mem (hlen : pids.length = chosen.length) (hpids : ∀ p ∈ pids, IsPid p)
    {dest : MLBBID} (h : dest ∈ chosen) : (assigned chosen pids dest, dest) ∈ pids.zip chosen := by
  induction chosen generalizing pids with
  | nil => cases h
  | cons id chosen ih =>
    obtain _ | ⟨p, pids⟩ := pids
    · simp at hlen
    · have hp := toPid_ofPid (hpids p List.mem_cons_self)
      by_cases hid : id = dest
      · have heq : assigned (id :: chosen) (p :: pids) dest = p := by
          rw [assigned, pidOf, find?_foldl_insertPid]
          simp [hid, hp]
        rw [heq, hid]
        exact List.mem_cons_self
      · have heq : assigned (id :: chosen) (p :: pids) dest = assigned chosen pids dest := by
          rw [assigned, assigned, pidOf, pidOf, find?_foldl_insertPid, find?_foldl_insertPid]
          simp [hid]
        rw [heq]
        have hmem : dest ∈ chosen := (List.mem_cons.mp h).resolve_left (Ne.symm hid)
        refine List.mem_cons_of_mem _ (ih ?_ ?_ hmem)
        · simpa using hlen
        · exact fun q hq => hpids q (List.mem_cons_of_mem p hq)

theorem snd_eq_of_mem_zip {α β : Type} {l : List α} {l' : List β} (h : l.Nodup) {a : α} {b b' : β}
    (hb : (a, b) ∈ l.zip l') (hb' : (a, b') ∈ l.zip l') : b = b' := by
  obtain ⟨i, hi⟩ := List.mem_iff_getElem?.mp hb
  obtain ⟨j, hj⟩ := List.mem_iff_getElem?.mp hb'
  obtain ⟨hia, hib⟩ := List.getElem?_zip_eq_some.mp hi
  obtain ⟨hja, hjb⟩ := List.getElem?_zip_eq_some.mp hj
  obtain rfl : i = j := 
    (List.getElem?_inj (List.getElem?_eq_some_iff.mp hia).1 h).mp (hia.trans hja.symm)
  exact Option.some.inj (hib.symm.trans hjb)

theorem fst_eq_of_mem_zip {α β : Type} {l : List α} {l' : List β} (h : l'.Nodup) {a a' : α} {b : β}
    (ha : (a, b) ∈ l.zip l') (ha' : (a', b) ∈ l.zip l') : a = a' := by
  have hswap : ∀ x, (x, b) ∈ l.zip l' → (b, x) ∈ l'.zip l := by
    intro x hx
    rw [← List.zip_swap]
    exact List.mem_map_of_mem hx
  exact snd_eq_of_mem_zip h (hswap a ha) (hswap a' ha')

/-- Where the chosen blocks are distinct, each process has the destination that it was
forked for. -/
theorem assigned_eq_iff (hlen : pids.length = chosen.length) (hpids : ∀ p ∈ pids, IsPid p)
    (hn : pids.Nodup) (hc : chosen.Nodup) {p : ℤ} {id : MLBBID} (h : (p, id) ∈ pids.zip chosen)
    (dest : MLBBID) : assigned chosen pids dest = p ↔ dest = id := by
  constructor
  · intro heq
    by_cases hdest : dest ∈ chosen
    · have hmem := assigned_of_mem hlen hpids hdest
      rw [heq] at hmem
      exact snd_eq_of_mem_zip hn hmem h
    · have hpos := (hpids p (List.of_mem_zip h).1).1
      rw [assigned_of_notMem hdest] at heq
      omega
  · rintro rfl
    exact fst_eq_of_mem_zip hc (assigned_of_mem hlen hpids (List.of_mem_zip h).2) h

/-- The candidates with their pids. -/
def entries {P : Type} (candidates : List (WorkerInfo P)) (dests chosen : List MLBBID)
    (pids : List ℤ) : List (WorkerInfo P) :=
  (candidates.zip dests).map fun c => { c.1 with pid := assigned chosen pids c.2 }

variable {P F : Type} {oracle : Oracle P F} {candidates : List (WorkerInfo P)}
  {dests : List MLBBID}

theorem entries_pid (chosen : List MLBBID) (pids : List ℤ)
    (hlen : candidates.length = dests.length) :
    (entries candidates dests chosen pids).map WorkerInfo.pid =
      dests.map (assigned chosen pids) := by
  have hsnd : (candidates.zip dests).map Prod.snd = dests := List.map_snd_zip hlen.ge
  conv_rhs => rw [← hsnd]
  rw [entries, List.map_map, List.map_map]
  rfl

theorem countP_entries (chosen : List MLBBID) (pids : List ℤ)
    (hlen : candidates.length = dests.length) (p : ℤ) :
    (entries candidates dests chosen pids).countP (·.pid = p) =
      dests.countP (assigned chosen pids · = p) := by
  have hmap := congrArg (List.countP (· = p)) (entries_pid chosen pids hlen)
  rwa [List.countP_map, List.countP_map] at hmap

theorem entries_label (hlen : candidates.length = dests.length) (mem : ℕ → F) :
    (entries candidates dests chosen pids).map (oracle.getWorkerLastMLBBID mem) =
      candidates.map (oracle.getWorkerLastMLBBID mem) := by
  have hfst : (candidates.zip dests).map Prod.fst = candidates := List.map_fst_zip hlen.le
  conv_rhs => rw [← hfst]
  rw [entries, List.map_map, List.map_map]
  rfl

end Assigned

namespace Manager

variable {P F : Type} [LinearOrder P] (opt : Options P)
  (alg : HeapAlgorithms (WorkerInfo.priority (P := P)))
  (sort : SortAlgorithm (WorkerInfo.priority (P := P))) (oracle : Oracle P F)

/-- The blocks of the best candidate and of those others that reach the threshold. -/
def choose_branches_to_elide (label : WorkerInfo P → MLBBID) (candidates : List (WorkerInfo P)) :
    Option (List MLBBID) :=
  match sort.sort candidates with
  | [] => none
  | best :: rest =>
    some (label best ::
      (rest.filter (opt.forkElisionPriorityThreshold ≤ ·.priority)).map label)

/-- The requester, one candidate for each destination, and the manager with their slots. -/
def predictBranches (m : Manager P F) (pid : ℤ) (dests : List MLBBID) :
    Option (WorkerInfo P × List (WorkerInfo P) × Manager P F) := do
  let some requester ← m.Running.find pid | none
  let (slots, m) ← m.getNewSlots opt dests.length
  let (candidates, mlinfo) := oracle.new_predict m.mlinfo requester dests slots
  return (requester, candidates, { m with mlinfo := mlinfo })

/-- What the manager knows while the worker forks. -/
structure Offer (P F : Type) [LinearOrder P] where
  manager : Manager P F
  requester : WorkerInfo P
  dests : List MLBBID
  candidates : List (WorkerInfo P)
  chosen : List MLBBID

/-- The first half of the request, and the buffer with the chosen blocks. -/
def offerBranches [IntCast P] (m : Manager P F) (pid : ℤ) (d : Dinfo) :
    Option (Offer P F × Dinfo) := do
  let dests ← d.receive_vec_dinfo
  let (requester, candidates, m) ← m.predictBranches opt oracle pid dests
  if opt.explorationType ≠ .BFS ∧ candidates.any (·.priority < ((0 : ℤ) : P)) then none
  else
    let chosen ← choose_branches_to_elide opt sort (oracle.getWorkerLastMLBBID m.mlinfo) candidates
    let d ← d.send_vec_dinfo chosen
    return (⟨m, requester, dests, candidates, chosen⟩, d)

/-- The second half, once the worker has left the pids in the buffer. -/
def assignBranches (o : Offer P F) (d : Dinfo) : Option (Manager P F) := do
  let pids ← d.receive_vec_dinfo
  if pids.head? ≠ some (ofPid o.requester.pid) ∨ o.chosen.length < pids.length then none
  else
    let BBIDToPID := (o.chosen.zip pids).foldl insertPid []
    let (_, Running) ← o.manager.Running.get alg o.requester.pid
    let Stopped := (o.candidates.zip o.dests).foldl
      (fun g c => g.push alg { c.1 with pid := pidOf BBIDToPID c.2 }) o.manager.Stopped
    if opt.maxStopped ≤ Stopped.size ∨ MAX_PICKED_WORKERS ≤ o.manager.pickedWorkers then none
    else return { o.manager with Stopped := Stopped, Running := Running }

/-- The whole request, with the processes that are alive after it. -/
def forkRequest [IntCast P] (m : Manager P F) (d : Dinfo) (pid : ℤ) (dests : List MLBBID)
    (forks : List ℤ) : Option (Manager P F × List (ℤ × MLBBID)) := do
  let d ← d.send_vec_dinfo dests
  let (o, d) ← m.offerBranches opt sort oracle pid d
  let (processes, d) ← forkBranches pid forks d
  let m ← assignBranches opt alg o d
  return (m, processes)

/-- No path is lost or doubled: the requester is the one worker that has left `Running`, and
`Stopped` has one more entry for each destination. Each process is that of one of these, at
whose destination it resumes, and the others have none. -/
structure Served (m m' : Manager P F) (pid : ℤ) (dests : List MLBBID)
    (processes : List (ℤ × MLBBID)) : Prop where
  running : ∃ w, w.pid = pid ∧ (w :: m'.Running.workers).Perm m.Running.workers
  requester_out : ∀ w ∈ m'.Running.workers, w.pid ≠ pid
  stopped : ∃ entries,
    m'.Stopped.workers.Perm (m.Stopped.workers ++ entries) ∧
    entries.map (oracle.getWorkerLastMLBBID m'.mlinfo) = dests ∧
    (∀ p ∈ processes, entries.countP (·.pid = p.1) = 1) ∧
    (∀ p ∈ processes, ∀ j, ∀ w ∈ entries[j]?, w.pid = p.1 → getIdxInVec dests p.2 = some j) ∧
    ∀ w ∈ entries, w.pid = -1 ∨ w.pid ∈ processes.map Prod.fst

variable {opt alg sort oracle} {m m' m₁ : Manager P F} {pid : ℤ} {dests : List MLBBID}
  {requester : WorkerInfo P} {candidates : List (WorkerInfo P)}

/-- There is one candidate for each destination, which its features name, in a new slot. -/
theorem predictBranches_eq
    (h : m.predictBranches opt oracle pid dests = some (requester, candidates, m₁)) :
    m.Running.find pid = some (some requester) ∧ m₁.Stopped = m.Stopped ∧
      m₁.Running = m.Running ∧ candidates.map (oracle.getWorkerLastMLBBID m₁.mlinfo) = dests ∧
      candidates.map WorkerInfo.pinfo =
        ranges opt.pinfo_bytes m.next_open_mlinfo_slot dests.length ∧
      m₁.next_open_mlinfo_slot = m.next_open_mlinfo_slot + dests.length * opt.pinfo_bytes ∧
      (0 < dests.length → m₁.next_open_mlinfo_slot <
        opt.mlinfo_cache + MAX_MLINFO_SLOTS * opt.pinfo_bytes) := by
  obtain ⟨o, hfind, h⟩ := Option.bind_eq_some_iff.mp h
  cases o with
  | none => cases h
  | some w =>
    obtain ⟨⟨slots, m₂⟩, hslots, h⟩ := Option.bind_eq_some_iff.mp h
    obtain ⟨rfl, heq⟩ := Prod.mk.inj (Option.some.inj h)
    obtain ⟨rfl, rfl⟩ := Prod.mk.inj heq
    obtain ⟨hlen, hnodup⟩ := getNewSlots_nodup hslots
    obtain ⟨hranges, rfl, hlt⟩ := getNewSlots_eq hslots
    refine ⟨hfind, rfl, rfl, oracle.labels m.mlinfo w hlen hnodup, ?_, rfl, hlt⟩
    rw [← hranges]
    exact oracle.pinfo_eq m.mlinfo w dests slots hlen hnodup

theorem offerBranches_eq [IntCast P] {d d' : Dinfo} {o : Offer P F}
    (h : m.offerBranches opt sort oracle pid d = some (o, d')) :
    d.receive_vec_dinfo = some o.dests ∧
      m.predictBranches opt oracle pid o.dests = some (o.requester, o.candidates, o.manager) ∧
      choose_branches_to_elide opt sort (oracle.getWorkerLastMLBBID o.manager.mlinfo)
        o.candidates = some o.chosen ∧
      d.send_vec_dinfo o.chosen = some d' := by
  obtain ⟨dests, hdests, h⟩ := Option.bind_eq_some_iff.mp h
  obtain ⟨⟨requester, candidates, m₁⟩, hpredict, h⟩ := Option.bind_eq_some_iff.mp h
  dsimp only at h
  split at h
  · cases h
  · obtain ⟨chosen, hchosen, h⟩ := Option.bind_eq_some_iff.mp h
    obtain ⟨d₁, hsend, h⟩ := Option.bind_eq_some_iff.mp h
    obtain ⟨rfl, rfl⟩ := Prod.mk.inj (Option.some.inj h)
    exact ⟨hdests, hpredict, hchosen, hsend⟩

theorem forkBranches_eq {self : ℤ} {forks : List ℤ} {d d' : Dinfo}
    {processes : List (ℤ × MLBBID)} (h : forkBranches self forks d = some (processes, d')) :
    ∃ chosen, d.receive_vec_dinfo = some chosen ∧ chosen.length - 1 ≤ forks.length ∧
      processes = (self :: forks.take (chosen.length - 1)).zip chosen ∧
      d.send_vec_dinfo ((self :: forks.take (chosen.length - 1)).map ofPid) = some d' := by
  obtain ⟨chosen, hchosen, h⟩ := Option.bind_eq_some_iff.mp h
  split at h
  · cases h
  next hlen =>
    obtain ⟨d₁, hsend, h⟩ := Option.bind_eq_some_iff.mp h
    obtain ⟨rfl, rfl⟩ := Prod.mk.inj (Option.some.inj h)
    exact ⟨chosen, hchosen, Nat.le_of_not_lt hlen, rfl, hsend⟩

theorem assignBranches_eq {d : Dinfo} {o : Offer P F} (h : assignBranches opt alg o d = some m') :
    ∃ pids r, d.receive_vec_dinfo = some pids ∧ o.manager.Running.get alg o.requester.pid = some r ∧
      m' = { o.manager with
        Running := r.2
        Stopped := (o.candidates.zip o.dests).foldl (fun g c => g.push alg { c.1 with
          pid := pidOf ((o.chosen.zip pids).foldl insertPid []) c.2 }) o.manager.Stopped } := by
  obtain ⟨pids, hpids, h⟩ := Option.bind_eq_some_iff.mp h
  split at h
  · cases h
  · obtain ⟨r, hget, h⟩ := Option.bind_eq_some_iff.mp h
    dsimp only at h
    split at h
    · cases h
    · exact ⟨pids, r, hpids, hget, (Option.some.inj h).symm⟩

section Choose

variable {label : WorkerInfo P → MLBBID} {chosen : List MLBBID}

/-- The candidates that are to have a process. -/
def Backed (opt : Options P) (sort : SortAlgorithm (WorkerInfo.priority (P := P)))
    (candidates : List (WorkerInfo P)) (c : WorkerInfo P) : Prop :=
  c ∈ (sort.sort candidates).head? ∨ opt.forkElisionPriorityThreshold ≤ c.priority

theorem mem_chosen (h : choose_branches_to_elide opt sort label candidates = some chosen)
    (id : MLBBID) :
    id ∈ chosen ↔ ∃ c ∈ candidates, Backed opt sort candidates c ∧ label c = id := by
  have hmem : ∀ c, c ∈ sort.sort candidates ↔ c ∈ candidates := fun c =>
    (sort.sort_perm candidates).mem_iff
  unfold choose_branches_to_elide at h
  unfold Backed
  split at h
  · cases h
  next best rest hsort =>
    obtain rfl := Option.some.inj h
    simp only [← hmem, hsort, List.head?_cons, Option.mem_some_iff, List.mem_cons, List.mem_map,
      List.mem_filter, decide_eq_true_eq]
    constructor
    · rintro (rfl | ⟨c, ⟨hc, hle⟩, rfl⟩)
      · exact ⟨best, .inl rfl, .inl rfl, rfl⟩
      · exact ⟨c, .inr hc, .inr hle, rfl⟩
    · rintro ⟨c, rfl | hc, hb, rfl⟩
      · exact .inl rfl
      · obtain rfl | hle := hb
        · exact .inl rfl
        · exact .inr ⟨c, ⟨hc, hle⟩, rfl⟩

theorem count_chosen (h : choose_branches_to_elide opt sort label candidates = some chosen)
    (id : MLBBID) : chosen.count id ≤ (candidates.map label).count id := by
  unfold choose_branches_to_elide at h
  split at h
  · cases h
  next best rest hsort =>
    obtain rfl := Option.some.inj h
    have hsub : (label best :: (rest.filter
        (opt.forkElisionPriorityThreshold ≤ ·.priority)).map label).Sublist
          ((sort.sort candidates).map label) := by
      rw [hsort]
      exact ((List.filter_sublist).map label).cons_cons _
    exact (hsub.count_le id).trans_eq (((sort.sort_perm candidates).map label).count_eq id)

theorem chosen_ne_nil (h : choose_branches_to_elide opt sort label candidates = some chosen) :
    chosen ≠ [] := by
  unfold choose_branches_to_elide at h
  split at h
  · cases h
  · rw [← Option.some.inj h]
    exact List.cons_ne_nil _ _

end Choose

/-- What a request that finishes has done. -/
theorem forkRequest_eq [IntCast P] {d : Dinfo} {forks : List ℤ} {processes : List (ℤ × MLBBID)}
    (h : m.forkRequest opt alg sort oracle d pid dests forks = some (m', processes)) :
    ∃ requester candidates m₁ chosen pids,
      m.predictBranches opt oracle pid dests = some (requester, candidates, m₁) ∧
      choose_branches_to_elide opt sort (oracle.getWorkerLastMLBBID m₁.mlinfo) candidates =
        some chosen ∧
      (pids.Sublist (pid :: forks) ∧ pids.length = chosen.length) ∧
      processes = pids.zip chosen ∧
      (requester :: m'.Running.workers).Perm m.Running.workers ∧
      m'.mlinfo = m₁.mlinfo ∧
      m'.Stopped.workers.Perm (m.Stopped.workers ++ entries candidates dests chosen pids) := by
  obtain ⟨d₁, hsend, h⟩ := Option.bind_eq_some_iff.mp h
  obtain ⟨⟨o, d₂⟩, ho, h⟩ := Option.bind_eq_some_iff.mp h
  obtain ⟨⟨procs, d₃⟩, hb, h⟩ := Option.bind_eq_some_iff.mp h
  obtain ⟨m₂, ha, h⟩ := Option.bind_eq_some_iff.mp h
  obtain ⟨rfl, rfl⟩ := Prod.mk.inj (Option.some.inj h)
  obtain ⟨hdests, hpredict, hchoose, hsend'⟩ := offerBranches_eq ho
  obtain rfl : dests = o.dests := Option.some.inj ((Dinfo.receive_send hsend).symm.trans hdests)
  obtain ⟨chosen, hrecv, hforks, hprocs, hsend₃⟩ := forkBranches_eq hb
  obtain rfl : o.chosen = chosen := Option.some.inj ((Dinfo.receive_send hsend').symm.trans hrecv)
  obtain ⟨words, ⟨v, g⟩, hrecv₃, hget, hm⟩ := assignBranches_eq ha
  obtain rfl := Option.some.inj ((Dinfo.receive_send hsend₃).symm.trans hrecv₃)
  obtain ⟨hfind, hstopped, hrunning, -⟩ := predictBranches_eq hpredict
  have hpid : o.requester.pid = pid := (WorkerGroup.find_workers hfind).1
  rw [hrunning, hpid] at hget
  obtain rfl : v = some o.requester := WorkerGroup.get_of_find hfind hget
  have hlen : 0 < o.chosen.length := List.length_pos_iff.mpr (chosen_ne_nil hchoose)
  refine ⟨o.requester, o.candidates, o.manager, o.chosen,
    pid :: forks.take (o.chosen.length - 1), hpredict, hchoose, ⟨?_, ?_⟩, hprocs, ?_, ?_, ?_⟩
  · exact (List.take_sublist _ _).cons_cons _
  · rw [List.length_cons, List.length_take]
    omega
  · rw [hm]
    exact (WorkerGroup.get_workers hget).2
  · rw [hm]
  · rw [hm, ← hstopped]
    exact WorkerGroup.foldl_push_workers alg _ _ _

theorem chosen_nodup {label : WorkerInfo P → MLBBID} {chosen : List MLBBID}
    (h : choose_branches_to_elide opt sort label candidates = some chosen)
    (hlabel : candidates.map label = dests) (honce : ∀ id ∈ chosen, dests.count id = 1) :
    chosen.Nodup := by
  refine List.nodup_iff_count_le_one.mpr fun id => ?_
  by_cases hid : id ∈ chosen
  · rw [← honce id hid, ← hlabel]
    exact count_chosen h id
  · rw [List.count_eq_zero_of_not_mem hid]
    exact Nat.zero_le 1

/-- No other destination has the block of one that is to have a process. -/
def BackedOnce (opt : Options P) (sort : SortAlgorithm (WorkerInfo.priority (P := P)))
    (candidates : List (WorkerInfo P)) (dests : List MLBBID) : Prop :=
  ∀ c ∈ candidates.zip dests, Backed opt sort candidates c.1 → dests.count c.2 = 1

/-- The blocks that are to have a process, by their candidates. -/
theorem backedOnce_iff {label : WorkerInfo P → MLBBID} {chosen : List MLBBID}
    (h : choose_branches_to_elide opt sort label candidates = some chosen)
    (hlabel : candidates.map label = dests) :
    BackedOnce opt sort candidates dests ↔ ∀ id ∈ chosen, dests.count id = 1 := by
  simp only [BackedOnce, mem_chosen h]
  rw [← hlabel, ← List.map_prod_left_eq_zip]
  constructor
  · rintro hone _ ⟨c, hc, hb, rfl⟩
    exact hone (c, label c) (List.mem_map_of_mem hc) hb
  · intro hone x hx hb
    obtain ⟨c, hc, rfl⟩ := List.mem_map.mp hx
    exact hone _ ⟨c, hc, hb, rfl⟩

/-- Distinct destinations are enough. -/
theorem backedOnce_of_nodup (h : dests.Nodup) : BackedOnce opt sort candidates dests :=
  fun _ hc _ => List.count_eq_one_of_mem h (List.of_mem_zip hc).2

section Served

variable [IntCast P] {d : Dinfo} {forks : List ℤ} {processes : List (ℤ × MLBBID)}

/-- Two destinations with one block would have the same process. -/
theorem once_of_served
    (hpredict : m.predictBranches opt oracle pid dests = some (requester, candidates, m₁))
    (h : m.forkRequest opt alg sort oracle d pid dests forks = some (m', processes))
    (hpids : ∀ p ∈ pid :: forks, IsPid p) (hserved : Served oracle m m' pid dests processes) :
    BackedOnce opt sort candidates dests := by
  obtain ⟨_, _, _, chosen, pids, hpredict', hchoose, ⟨hsub, hlen⟩, rfl, -, -, hstopped⟩ :=
    forkRequest_eq h
  obtain ⟨rfl, heq⟩ := Prod.mk.inj (Option.some.inj (hpredict.symm.trans hpredict'))
  obtain ⟨rfl, rfl⟩ := Prod.mk.inj heq
  obtain ⟨-, -, -, hlabel, -⟩ := predictBranches_eq hpredict
  have hlen' : candidates.length = dests.length := by rw [← hlabel, List.length_map]
  rw [backedOnce_iff hchoose hlabel]
  intro id hid
  obtain ⟨es, hes, -, hone, -, -⟩ := hserved.stopped
  have hsame : es.Perm (entries candidates dests chosen pids) :=
    (List.perm_append_left_iff _).mp (hes.symm.trans hstopped)
  have hp := hone _ (assigned_of_mem hlen (fun p hp => hpids p (hsub.subset hp)) hid)
  rw [hsame.countP_eq, countP_entries chosen pids hlen'] at hp
  have hle : dests.count id ≤ 1 := by
    rw [← hp]
    refine List.countP_mono_left fun x _ hx => ?_
    simpa using congrArg (assigned chosen pids) (eq_of_beq hx)
  have hpos : 0 < dests.count id := by
    obtain ⟨c, hc, -, rfl⟩ := (mem_chosen hchoose id).mp hid
    rw [← hlabel]
    exact List.count_pos_iff.mpr (List.mem_map_of_mem hc)
  omega

/-- Where it does not happen, the chosen blocks and the pids correspond one to one. -/
theorem served_of_once
    (hpredict : m.predictBranches opt oracle pid dests = some (requester, candidates, m₁))
    (h : m.forkRequest opt alg sort oracle d pid dests forks = some (m', processes))
    (hnodup : (pid :: forks).Nodup) (hpids : ∀ p ∈ pid :: forks, IsPid p)
    (honce : BackedOnce opt sort candidates dests)
    (hrun : m.Running.workers.countP (·.pid = pid) = 1) :
    Served oracle m m' pid dests processes := by
  obtain ⟨_, _, _, chosen, pids, hpredict', hchoose, ⟨hsub, hlen⟩, rfl, hrunning, hmem,
    hstopped⟩ := forkRequest_eq h
  obtain ⟨rfl, heq⟩ := Prod.mk.inj (Option.some.inj (hpredict.symm.trans hpredict'))
  obtain ⟨rfl, rfl⟩ := Prod.mk.inj heq
  obtain ⟨hfind, -, -, hlabel, -⟩ := predictBranches_eq hpredict
  have hpid : requester.pid = pid := (WorkerGroup.find_workers hfind).1
  have hlen' : candidates.length = dests.length := by rw [← hlabel, List.length_map]
  have hpids' : ∀ p ∈ pids, IsPid p := fun p hp => hpids p (hsub.subset hp)
  rw [backedOnce_iff hchoose hlabel] at honce
  have hiff : ∀ {p id}, (p, id) ∈ pids.zip chosen → ∀ dest,
      assigned chosen pids dest = p ↔ dest = id :=
    assigned_eq_iff hlen hpids' (hnodup.sublist hsub) (chosen_nodup hchoose hlabel honce)
  refine ⟨⟨requester, hpid, hrunning⟩, (running_once_iff hrunning hpid).mpr hrun, _, hstopped,
    ?_, ?_, ?_, ?_⟩
  · rw [entries_label hlen', hmem, hlabel]
  · rintro ⟨p, id⟩ hp
    rw [countP_entries chosen pids hlen', ← honce id (List.of_mem_zip hp).2]
    refine List.countP_congr fun x _ => ?_
    simp [hiff hp x]
  · rintro ⟨p, id⟩ hp j w hw hwp
    have hj : dests[j]?.map (assigned chosen pids) = some p := by
      rw [← List.getElem?_map, ← entries_pid chosen pids hlen', List.getElem?_map, hw]
      exact congrArg some hwp
    obtain ⟨dest, hdest, hassigned⟩ := Option.map_eq_some_iff.mp hj
    obtain rfl := (hiff hp dest).mp hassigned
    exact getIdxInVec_eq (honce dest (List.of_mem_zip hp).2) hdest
  · intro w hw
    have hmemw : w.pid ∈ dests.map (assigned chosen pids) := by
      rw [← entries_pid chosen pids hlen']
      exact List.mem_map_of_mem hw
    obtain ⟨dest, -, hdest⟩ := List.mem_map.mp hmemw
    by_cases hin : dest ∈ chosen
    · refine .inr (hdest ▸ ?_)
      exact List.mem_map_of_mem (assigned_of_mem hlen hpids' hin)
    · exact .inl (hdest ▸ assigned_of_notMem hin)

/-- A request loses and doubles no path exactly when no other destination has the block of
one that is to have a process, and `Running` lists the requester once. -/
theorem served_iff
    (hpredict : m.predictBranches opt oracle pid dests = some (requester, candidates, m₁))
    (h : m.forkRequest opt alg sort oracle d pid dests forks = some (m', processes))
    (hnodup : (pid :: forks).Nodup) (hpids : ∀ p ∈ pid :: forks, IsPid p) :
    Served oracle m m' pid dests processes ↔
      BackedOnce opt sort candidates dests ∧ m.Running.workers.countP (·.pid = pid) = 1 := by
  constructor
  · intro hserved
    obtain ⟨w, hpid, hrunning⟩ := hserved.running
    exact ⟨once_of_served hpredict h hpids hserved,
      (running_once_iff hrunning hpid).mp hserved.requester_out⟩
  · rintro ⟨honce, hrun⟩
    exact served_of_once hpredict h hnodup hpids honce hrun

end Served

/-! ### Requests with and without a repeated block -/

/-- An oracle whose features are the blocks, of which each has a priority. -/
def blockOracle (priority : MLBBID → P) : Oracle P MLBBID where
  new_predict := fun mem requester dests slots =>
    ((slots.zip dests).map fun c =>
      ⟨-1, requester.pid, requester.branches + 1, priority c.2, c.1⟩,
    fun slot => (((slots.zip dests).find? (·.1 = slot)).map Prod.snd).getD (mem slot))
  lastMLBBID := id
  pinfo_eq := fun _ _ dests slots hlen _ => by
    rw [List.map_map]
    exact List.map_fst_zip hlen.le
  label_eq := fun mem _ dests slots hlen hnodup => by
    have hfst : (slots.zip dests).map Prod.fst = slots := List.map_fst_zip hlen.le
    have hsnd : (slots.zip dests).map Prod.snd = dests := List.map_snd_zip hlen.ge
    conv_lhs => rw [← hfst]
    conv_rhs => rw [← hsnd]
    rw [List.map_map]
    refine List.map_congr_left fun c hc => ?_
    have hsome : ((slots.zip dests).find? (·.1 = c.1)).isSome :=
      List.find?_isSome.mpr ⟨c, hc, by simp⟩
    obtain ⟨e, he⟩ := Option.isSome_iff_exists.mp hsome
    have hkey : e.1 = c.1 := by simpa using List.find?_some he
    have hval : e.2 = c.2 := by
      refine snd_eq_of_mem_zip hnodup ?_ hc
      rw [← hkey]
      exact List.mem_of_find?_eq_some he
    simp only [Function.comp_apply, hfst, he, id_eq]
    exact hval

/-- Options of a breadth-first verification. -/
def bfsOptions : Options ℤ where
  explorationType := .BFS
  verTestType := .VERIFY
  maxRunning := 1
  maxStopped := 1024
  msgsToVerify := 10
  forkElisionPriorityThreshold := -1
  useFallBackOracle := false
  fallBackBranchThreshold := 2000
  mlinfo_cache := 0
  pinfo_bytes := 8
  pinfo_pos := by decide

/-- The manager while the first worker runs. -/
def firstRunning : Manager ℤ MLBBID :=
  { init_structures bfsOptions with
    Running := { WorkerGroup.new .QUEUE with dq := [⟨101, 100, 0, -1, 0⟩] }
    next_open_mlinfo_slot := 8
    replay_pid := 90
    pickedWorkers := 1 }

def zeroDinfo : Dinfo := ⟨List.replicate destWords 0, List.length_replicate⟩

/-- The buffer after the words have been sent. -/
def sent (v : List (BitVec 64)) : Dinfo := (zeroDinfo.send_vec_dinfo v).getD zeroDinfo

/-- The first worker asks for two destinations, for which it can fork one process. -/
def firstRequest (dests : List MLBBID) : Option (Manager ℤ MLBBID × List (ℤ × MLBBID)) :=
  firstRunning.forkRequest bfsOptions (insertionSort WorkerInfo.priority).heap
    (insertionSort WorkerInfo.priority) (blockOracle fun _ => 0) zeroDinfo 101 dests [102]

theorem served_two_blocks :
    ∃ m' processes, firstRequest [7, 8] = some (m', processes) ∧
      processes = [(101, 7), (102, 8)] ∧ m'.Stopped.workers.map WorkerInfo.pid = [101, 102] ∧
      Served (blockOracle fun _ => 0) firstRunning m' 101 [7, 8] processes := by
  have hpredict : firstRunning.predictBranches bfsOptions (blockOracle fun _ => 0) 101 [7, 8] =
      some (⟨101, 100, 0, -1, 0⟩, [⟨-1, 101, 1, 0, 8⟩, ⟨-1, 101, 1, 0, 16⟩], _) := rfl
  have h : firstRequest [7, 8] = some (_, _) := rfl
  refine ⟨_, _, h, rfl, rfl, ?_⟩
  refine (served_iff hpredict h (by decide) (by simp [IsPid])).mpr ⟨?_, rfl⟩
  exact backedOnce_of_nodup (by decide)

/-- Two destinations in one block: both get the pid of the requester, and the process that
was forked for the second one is lost. -/
theorem not_served_one_block :
    ∃ m' processes, firstRequest [7, 7] = some (m', processes) ∧
      processes = [(101, 7), (102, 7)] ∧ m'.Stopped.workers.map WorkerInfo.pid = [101, 101] ∧
      ¬ Served (blockOracle fun _ => 0) firstRunning m' 101 [7, 7] processes := by
  have hpredict : firstRunning.predictBranches bfsOptions (blockOracle fun _ => 0) 101 [7, 7] =
      some (⟨101, 100, 0, -1, 0⟩, [⟨-1, 101, 1, 0, 8⟩, ⟨-1, 101, 1, 0, 16⟩], _) := rfl
  have h : firstRequest [7, 7] = some (_, _) := rfl
  refine ⟨_, _, h, rfl, rfl, fun hserved => ?_⟩
  have honce := once_of_served hpredict h (by simp [IsPid]) hserved
  have hbacked : Backed bfsOptions (insertionSort WorkerInfo.priority)
      [⟨-1, 101, 1, 0, 8⟩, ⟨-1, 101, 1, 0, 16⟩] ⟨-1, 101, 1, 0, 8⟩ := .inr (by decide)
  exact absurd (honce (_, 7) List.mem_cons_self hbacked) (by decide)

end Manager

end TaseVerifier
