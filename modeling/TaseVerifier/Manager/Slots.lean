import TaseVerifier.Manager.ForkRequest

/-! The slots of the workers over whole runs of the manager. Slots come from a bump pointer,
which the end of a round and the change to the backup oracle reset. -/

namespace TaseVerifier

open Library

/-- What the manager does next, with the buffers that it finds. -/
inductive Event where
  | initial_fork (pid manager_pid : ℤ) (d : Dinfo)
  | schedule_worker (d d' : Dinfo)
  | fork_request (pid : ℤ) (d d' : Dinfo)
  | abort (pid : ℤ)
  | success (pid : ℤ) (d : Dinfo)

namespace Manager

variable {P F : Type} [LinearOrder P] (opt : Options P)
  (alg : HeapAlgorithms (WorkerInfo.priority (P := P)))
  (sort : SortAlgorithm (WorkerInfo.priority (P := P))) (oracle : Oracle P F)

def step [IntCast P] [Inhabited F] (m : Manager P F) : Event → Option (Manager P F)
  | .initial_fork pid manager_pid d => m.initial_fork opt alg pid manager_pid d
  | .schedule_worker d d' => m.schedule_worker opt alg d d'
  | .fork_request pid d d' => do
    let (o, _) ← m.offerBranches opt sort oracle pid d
    assignBranches opt alg o d'
  | .abort pid => m.abort alg pid
  | .success pid d => m.success opt alg pid d

def run [IntCast P] [Inhabited F] (m : Manager P F) : List Event → Option (Manager P F)
  | [] => some m
  | e :: events => (m.step opt alg sort oracle e).bind fun m => run m events

/-- The slots of the workers that are stopped or running. -/
def held (m : Manager P F) : List ℕ :=
  m.Stopped.workers.map WorkerInfo.pinfo ++ m.Running.workers.map WorkerInfo.pinfo

/-- No two workers have overlapping slots, and all slots lie in the cache. -/
def SlotsApart (m : Manager P F) : Prop :=
  Packed opt.pinfo_bytes opt.mlinfo_cache
    (opt.mlinfo_cache + MAX_MLINFO_SLOTS * opt.pinfo_bytes) m.held

/-- The slots are not reset while another worker runs. -/
def Alone (m : Manager P F) : Event → Prop
  | .schedule_worker _ _ => m.Running.size < opt.maxRunning → m.fallsBack opt → m.Running.size = 0
  | .success _ _ => opt.verTestType = .VERIFY → m.Running.size ≤ 1
  | _ => True

/-- No event of a run resets the slots while another worker runs. -/
def RunsAlone [IntCast P] [Inhabited F] (m : Manager P F) : List Event → Prop
  | [] => True
  | e :: events => Alone opt m e ∧ ∀ m', m.step opt alg sort oracle e = some m' → RunsAlone m' events

/-! ### What one event does to the slots -/

/-- Workers may leave, and the new ones have the next slots. -/
structure Extends (m m' : Manager P F) : Prop where
  intro ::
  slots : ∃ kept n, m'.held.Perm (kept ++ ranges opt.pinfo_bytes m.next_open_mlinfo_slot n) ∧
    kept.Subperm m.held ∧
    m'.next_open_mlinfo_slot = m.next_open_mlinfo_slot + n * opt.pinfo_bytes ∧
    (0 < n → m'.next_open_mlinfo_slot < opt.mlinfo_cache + MAX_MLINFO_SLOTS * opt.pinfo_bytes)

/-- One worker is left, at the start of the cache. -/
structure Restarts (m' : Manager P F) : Prop where
  held_eq : m'.held = [opt.mlinfo_cache]
  next_eq : m'.next_open_mlinfo_slot = opt.mlinfo_cache + opt.pinfo_bytes
  next_lt : m'.next_open_mlinfo_slot < opt.mlinfo_cache + MAX_MLINFO_SLOTS * opt.pinfo_bytes

/-- The bump pointer is above every slot. -/
structure SlotsBelow (m : Manager P F) : Prop where
  packed : Packed opt.pinfo_bytes opt.mlinfo_cache m.next_open_mlinfo_slot m.held
  lower : opt.mlinfo_cache ≤ m.next_open_mlinfo_slot
  upper : m.next_open_mlinfo_slot ≤ opt.mlinfo_cache + MAX_MLINFO_SLOTS * opt.pinfo_bytes

variable {opt alg sort oracle} {m m' : Manager P F}

theorem SlotsBelow.extends (h : SlotsBelow opt m) (he : Extends opt m m') : SlotsBelow opt m' := by
  obtain ⟨kept, n, hheld, hkept, hnext, hlt⟩ := he.slots
  refine ⟨?_, ?_, ?_⟩
  · rw [hnext]
    exact ((h.packed.subperm hkept).append_ranges h.lower n).perm hheld
  · rw [hnext]
    exact h.lower.trans (Nat.le_add_right _ _)
  · obtain rfl | hpos := Nat.eq_zero_or_pos n
    · rw [hnext, Nat.zero_mul]
      exact h.upper
    · exact (hlt hpos).le

theorem Restarts.below (h : Restarts opt m') : SlotsBelow opt m' := by
  refine ⟨?_, ?_, h.next_lt.le⟩
  · rw [h.held_eq, h.next_eq]
    exact ⟨List.pairwise_singleton _ _, by simp, by simp⟩
  · rw [h.next_eq]
    exact Nat.le_add_right _ _

theorem SlotsBelow.slotsApart (h : SlotsBelow opt m) : SlotsApart opt m :=
  ⟨h.packed.apart, h.packed.lower, fun a ha => (h.packed.upper a ha).trans h.upper⟩

theorem Extends.refl (m : Manager P F) : Extends opt m m :=
  ⟨m.held, 0, by simp, List.Subperm.refl _, by simp, by simp⟩

theorem initial_fork_extends [IntCast P] {pid manager_pid : ℤ} {d : Dinfo}
    (h : m.initial_fork opt alg pid manager_pid d = some m') : Extends opt m m' := by
  obtain ⟨⟨slot, m₁⟩, hslot, h⟩ := Option.bind_eq_some_iff.mp h
  obtain ⟨replay, -, h⟩ := Option.bind_eq_some_iff.mp h
  obtain rfl := Option.some.inj h
  obtain ⟨rfl, rfl, hlt⟩ := getNewSlot_eq hslot
  refine ⟨m.held, 1, ?_, List.Subperm.refl _, by simp, fun _ => hlt⟩
  have hpush := (WorkerGroup.push_workers alg m.Stopped
    ⟨pid, manager_pid, 0, ((-1 : ℤ) : P), m.next_open_mlinfo_slot⟩).map WorkerInfo.pinfo
  refine (hpush.append_right _).trans ?_
  rw [ranges_succ, List.map_append, List.append_assoc, held, List.append_assoc]
  exact List.perm_append_comm.append_left _

theorem abort_extends {pid : ℤ} (h : m.abort alg pid = some m') : Extends opt m m' := by
  obtain ⟨⟨o, g⟩, hget, h⟩ := Option.bind_eq_some_iff.mp h
  obtain rfl := Option.some.inj h
  refine ⟨m.Stopped.workers.map WorkerInfo.pinfo ++ g.workers.map WorkerInfo.pinfo, 0, ?_, ?_,
    by simp, by simp⟩
  · rw [ranges_zero, List.append_nil]
    exact List.Perm.refl _
  · obtain ⟨l, hperm, hl⟩ := WorkerGroup.get_subperm hget
    exact (List.subperm_append_left _).mpr ⟨l.map _, hperm.map _, hl.map _⟩

/-- One worker is left in `Stopped`, at the start of the cache. -/
theorem resetForBackupOracle_eq [IntCast P] [Inhabited F] {d : Dinfo}
    (h : m.resetForBackupOracle opt alg d = some m') :
    m'.Stopped.workers.map WorkerInfo.pinfo = [opt.mlinfo_cache] ∧ m'.Running = m.Running ∧
      m'.next_open_mlinfo_slot = opt.mlinfo_cache + opt.pinfo_bytes ∧
      m'.next_open_mlinfo_slot < opt.mlinfo_cache + MAX_MLINFO_SLOTS * opt.pinfo_bytes := by
  obtain ⟨⟨slot, m₁⟩, hslot, h⟩ := Option.bind_eq_some_iff.mp h
  obtain ⟨⟨pid, m₂⟩, hsetup, h⟩ := Option.bind_eq_some_iff.mp h
  obtain rfl := Option.some.inj h
  obtain ⟨rfl, rfl, hlt⟩ := getNewSlot_eq hslot
  obtain ⟨-, r, rfl⟩ := setup_for_replay_eq hsetup
  refine ⟨?_, rfl, rfl, hlt⟩
  have hpush := (WorkerGroup.push_workers alg m.Stopped.cleanUp
    ⟨pid, -1, 0, ((-1 : ℤ) : P), opt.mlinfo_cache⟩).map WorkerInfo.pinfo
  rw [WorkerGroup.workers_cleanUp] at hpush
  exact List.perm_singleton.mp hpush

/-- The worker runs, in the slot that it has. -/
theorem startWorker_eq {curr : WorkerInfo P} {d : Dinfo} (h : m.startWorker alg curr d = some m') :
    m'.Stopped = m.Stopped ∧ m'.next_open_mlinfo_slot = m.next_open_mlinfo_slot ∧
      (m'.Running.workers.map WorkerInfo.pinfo).Perm
        (m.Running.workers.map WorkerInfo.pinfo ++ [curr.pinfo]) := by
  unfold startWorker at h
  split at h
  · obtain ⟨⟨pid, m₁⟩, hsetup, h⟩ := Option.bind_eq_some_iff.mp h
    obtain rfl := Option.some.inj h
    obtain ⟨-, r, rfl⟩ := setup_for_replay_eq hsetup
    have hpush := (WorkerGroup.push_workers alg m.Running { curr with pid := pid }).map
      WorkerInfo.pinfo
    rw [List.map_append] at hpush
    exact ⟨rfl, rfl, hpush⟩
  · obtain rfl := Option.some.inj h
    have hpush := (WorkerGroup.push_workers alg m.Running curr).map WorkerInfo.pinfo
    rw [List.map_append] at hpush
    exact ⟨rfl, rfl, hpush⟩

/-- A worker that is scheduled goes from `Stopped` to `Running`. -/
theorem moved_held (m₁ : Manager P F) {curr : WorkerInfo P} {g : WorkerGroup P} {d : Dinfo}
    (hpop : m.Stopped.pop alg = some (curr, g)) (hm : m₁.Stopped = g)
    (hrun : m₁.Running = m.Running) (h : m₁.startWorker alg curr d = some m') :
    m'.held.Perm m.held ∧ m'.next_open_mlinfo_slot = m₁.next_open_mlinfo_slot := by
  obtain ⟨hstopped, hnext, hrunning⟩ := startWorker_eq h
  refine ⟨?_, hnext⟩
  have hmoved := (WorkerGroup.pop_workers hpop).map WorkerInfo.pinfo
  rw [held, held, hstopped, hm]
  rw [hrun] at hrunning
  refine (hrunning.append_left _).trans ?_
  rw [← List.append_assoc]
  refine (List.perm_append_singleton _ _).trans ?_
  exact hmoved.append_right _

theorem schedule_worker_slots [IntCast P] [Inhabited F] {d d' : Dinfo}
    (h : m.schedule_worker opt alg d d' = some m')
    (halone : Alone opt m (.schedule_worker d d')) : Extends opt m m' ∨ Restarts opt m' := by
  unfold schedule_worker at h
  split at h
  next hroom =>
    obtain ⟨m₁, hback, h⟩ := Option.bind_eq_some_iff.mp h
    obtain ⟨⟨curr, g⟩, hpop, hstart⟩ := Option.bind_eq_some_iff.mp h
    obtain ⟨hheld, hnext⟩ := moved_held
      { m₁ with Stopped := g, pickedWorkers := m₁.pickedWorkers + 1 } hpop rfl rfl hstart
    unfold fallBack at hback
    split at hback
    next hfalls =>
      right
      obtain ⟨m₂, hreset, hback⟩ := Option.bind_eq_some_iff.mp hback
      obtain rfl := Option.some.inj hback
      obtain ⟨hstopped, hrunning, hslot, hlt⟩ := resetForBackupOracle_eq hreset
      have hempty : m.Running.workers = [] := by
        rw [← List.length_eq_zero_iff, ← WorkerGroup.size_eq]
        exact halone hroom hfalls
      have hone : m₂.held = [opt.mlinfo_cache] := by
        rw [held, hstopped, hrunning, hempty]
        rfl
      refine ⟨?_, hnext.trans hslot, ?_⟩
      · exact List.perm_singleton.mp (hone ▸ hheld)
      · rw [hnext]
        exact hlt
    next =>
      obtain rfl := Option.some.inj hback
      refine .inl ⟨m.held, 0, ?_, List.Subperm.refl _, by rw [hnext]; simp, by simp⟩
      simpa using hheld
  next =>
    obtain rfl := Option.some.inj h
    exact .inl (Extends.refl m)

theorem fork_request_extends [IntCast P] {pid : ℤ} {d d₁ d' : Dinfo} {o : Offer P F}
    (ho : m.offerBranches opt sort oracle pid d = some (o, d₁))
    (h : assignBranches opt alg o d' = some m') : Extends opt m m' := by
  obtain ⟨-, hpredict, -, -⟩ := offerBranches_eq ho
  obtain ⟨pids, ⟨v, g⟩, -, hget, rfl⟩ := assignBranches_eq h
  obtain ⟨hfind, hstopped, hrunning, hlabel, hslots, hnext, hlt⟩ := predictBranches_eq hpredict
  have hpid : o.requester.pid = pid := (WorkerGroup.find_workers hfind).1
  rw [hrunning, hpid] at hget
  obtain rfl : v = some o.requester := WorkerGroup.get_of_find hfind hget
  have hkept := (WorkerGroup.get_workers hget).2.map WorkerInfo.pinfo
  refine ⟨m.Stopped.workers.map WorkerInfo.pinfo ++ g.workers.map WorkerInfo.pinfo,
    o.dests.length, ?_, ?_, hnext, hlt⟩
  · have hpush := (WorkerGroup.foldl_push_workers alg
      (fun c : WorkerInfo P × MLBBID => { c.1 with
        pid := pidOf ((o.chosen.zip pids).foldl insertPid []) c.2 })
      (o.candidates.zip o.dests) o.manager.Stopped).map WorkerInfo.pinfo
    have hzip : ((o.candidates.zip o.dests).map (fun c => { c.1 with
        pid := pidOf ((o.chosen.zip pids).foldl insertPid []) c.2 })).map WorkerInfo.pinfo =
          ranges opt.pinfo_bytes m.next_open_mlinfo_slot o.dests.length := by
      have hfst : (o.candidates.zip o.dests).map Prod.fst = o.candidates :=
        List.map_fst_zip (by rw [← hlabel, List.length_map])
      rw [← hslots]
      conv_rhs => rw [← hfst]
      rw [List.map_map, List.map_map]
      rfl
    rw [List.map_append, hzip] at hpush
    refine (hpush.append_right _).trans ?_
    rw [hstopped, List.append_assoc, List.append_assoc]
    exact List.perm_append_comm.append_left _
  · refine (List.subperm_append_left _).mpr ?_
    exact (List.sublist_cons_self _ _).subperm.trans hkept.subperm

/-- A success ends the round in a verification, and changes nothing in an exploration. -/
theorem success_eq {pid : ℤ} {d : Dinfo} (h : m.success opt alg pid d = some m') :
    m' = m ∨ opt.verTestType = .VERIFY ∧
      ∃ tmp, m.Running.get alg pid = some (some tmp, m'.Running) ∧
        m'.Stopped = m.Stopped.cleanUp.push alg { tmp with pinfo := opt.mlinfo_cache } ∧
        m'.next_open_mlinfo_slot = opt.mlinfo_cache + opt.pinfo_bytes ∧
        m'.next_open_mlinfo_slot < opt.mlinfo_cache + MAX_MLINFO_SLOTS * opt.pinfo_bytes := by
  unfold success at h
  split at h
  · cases h
  · cases h
  · cases h
  · exact .inl (Option.some.inj h).symm
  next hverify =>
    dsimp only at h
    split at h
    · cases h
    · split at h
      · cases h
      · obtain ⟨⟨v, g⟩, hget, h⟩ := Option.bind_eq_some_iff.mp h
        cases v with
        | none => cases h
        | some tmp =>
          obtain ⟨r, -, h⟩ := Option.bind_eq_some_iff.mp h
          obtain ⟨⟨slot, m₁⟩, hslot, h⟩ := Option.bind_eq_some_iff.mp h
          obtain rfl := Option.some.inj h
          obtain ⟨rfl, rfl, hlt⟩ := getNewSlot_eq hslot
          exact .inr ⟨hverify, tmp, hget, rfl, rfl, hlt⟩

theorem success_slots {pid : ℤ} {d : Dinfo} (h : m.success opt alg pid d = some m')
    (halone : Alone opt m (.success pid d)) : Extends opt m m' ∨ Restarts opt m' := by
  obtain rfl | ⟨hverify, tmp, hget, hstopped, hnext, hlt⟩ := success_eq h
  · exact .inl (Extends.refl _)
  · refine .inr ⟨?_, hnext, hlt⟩
    have hempty : m'.Running.workers = [] := by
      have hlen := (WorkerGroup.get_workers hget).2.length_eq
      have hle := halone hverify
      rw [WorkerGroup.size_eq] at hle
      rw [List.length_cons] at hlen
      exact List.length_eq_zero_iff.mp (by omega)
    have hpush := (WorkerGroup.push_workers alg m.Stopped.cleanUp
      { tmp with pinfo := opt.mlinfo_cache }).map WorkerInfo.pinfo
    rw [WorkerGroup.workers_cleanUp] at hpush
    rw [held, hempty, hstopped, List.map_nil, List.append_nil]
    exact List.perm_singleton.mp hpush

/-! ### Whole runs -/

theorem init_slotsBelow [Inhabited F] : SlotsBelow opt (init_structures opt : Manager P F) where
  packed := by
    have hheld : (init_structures opt : Manager P F).held = [] := by
      simp [held, init_structures]
    rw [hheld]
    exact Packed.nil
  lower := Nat.le_refl _
  upper := Nat.le_add_right _ _

variable [IntCast P] [Inhabited F]

/-- Every event leaves more workers below the bump pointer, or starts the cache again. -/
theorem step_slots {e : Event} (h : m.step opt alg sort oracle e = some m')
    (halone : Alone opt m e) : Extends opt m m' ∨ Restarts opt m' := by
  cases e with
  | initial_fork pid manager_pid d => exact .inl (initial_fork_extends h)
  | schedule_worker d d' => exact schedule_worker_slots h halone
  | fork_request pid d d' =>
    obtain ⟨⟨o, d₁⟩, ho, h⟩ := Option.bind_eq_some_iff.mp h
    exact .inl (fork_request_extends ho h)
  | abort pid => exact .inl (abort_extends h)
  | success pid d => exact success_slots h halone

theorem run_slotsBelow {events : List Event} (h : m.run opt alg sort oracle events = some m')
    (halone : RunsAlone opt alg sort oracle m events) (hm : SlotsBelow opt m) :
    SlotsBelow opt m' := by
  induction events generalizing m with
  | nil =>
    obtain rfl := Option.some.inj h
    exact hm
  | cons e events ih =>
    obtain ⟨m₁, hstep, hrun⟩ := Option.bind_eq_some_iff.mp h
    refine ih hrun (halone.2 m₁ hstep) ?_
    obtain hext | hres := step_slots hstep halone.1
    · exact hm.extends hext
    · exact hres.below

/-! With one running worker the slots are never reset while another one runs. -/

theorem fallBack_running {d : Dinfo} (h : m.fallBack opt alg d = some m') :
    m'.Running = m.Running := by
  unfold fallBack at h
  split at h
  · obtain ⟨m₁, hreset, h⟩ := Option.bind_eq_some_iff.mp h
    obtain rfl := Option.some.inj h
    exact (resetForBackupOracle_eq hreset).2.1
  · rw [← Option.some.inj h]

theorem schedule_worker_running {d d' : Dinfo} (h : m.schedule_worker opt alg d d' = some m')
    (hm : m.Running.size ≤ opt.maxRunning) : m'.Running.size ≤ opt.maxRunning := by
  unfold schedule_worker at h
  split at h
  next hroom =>
    obtain ⟨m₁, hback, h⟩ := Option.bind_eq_some_iff.mp h
    obtain ⟨⟨curr, g⟩, -, hstart⟩ := Option.bind_eq_some_iff.mp h
    have hlen := (startWorker_eq hstart).2.2.length_eq
    rw [fallBack_running hback, List.length_append, List.length_map, List.length_map,
      ← WorkerGroup.size_eq, ← WorkerGroup.size_eq] at hlen
    exact hlen.trans_le hroom
  next => exact Option.some.inj h ▸ hm

theorem step_running {e : Event} (h : m.step opt alg sort oracle e = some m')
    (hm : m.Running.size ≤ opt.maxRunning) : m'.Running.size ≤ opt.maxRunning := by
  have hget : ∀ {pid r}, m.Running.get alg pid = some r → r.2.size ≤ opt.maxRunning := by
    intro pid r hr
    have hle := (WorkerGroup.get_subperm hr).length_le
    rw [← WorkerGroup.size_eq, ← WorkerGroup.size_eq] at hle
    exact hle.trans hm
  cases e with
  | initial_fork pid manager_pid d =>
    obtain ⟨⟨slot, m₁⟩, hslot, h⟩ := Option.bind_eq_some_iff.mp h
    obtain ⟨r, -, h⟩ := Option.bind_eq_some_iff.mp h
    obtain rfl := Option.some.inj h
    obtain ⟨-, rfl, -⟩ := getNewSlot_eq hslot
    exact hm
  | schedule_worker d d' => exact schedule_worker_running h hm
  | fork_request pid d d' =>
    obtain ⟨⟨o, d₁⟩, ho, h⟩ := Option.bind_eq_some_iff.mp h
    obtain ⟨pids, r, -, hr, rfl⟩ := assignBranches_eq h
    obtain ⟨-, hpredict, -, -⟩ := offerBranches_eq ho
    rw [(predictBranches_eq hpredict).2.2.1] at hr
    exact hget hr
  | abort pid =>
    obtain ⟨r, hr, h⟩ := Option.bind_eq_some_iff.mp h
    obtain rfl := Option.some.inj h
    exact hget hr
  | success pid d =>
    obtain rfl | ⟨-, tmp, hr, -⟩ := success_eq h
    · exact hm
    · exact hget hr

theorem runsAlone_of_maxRunning_one (hone : opt.maxRunning = 1) (events : List Event)
    (hm : m.Running.size ≤ 1) : RunsAlone opt alg sort oracle m events := by
  induction events generalizing m with
  | nil => trivial
  | cons e events ih =>
    refine ⟨?_, fun m' hstep => ih (hone ▸ step_running hstep (hone ▸ hm))⟩
    cases e with
    | schedule_worker d d' => exact fun hroom _ => by omega
    | success pid d => exact fun _ => hm
    | _ => trivial

variable (opt alg sort oracle)

/-- Slots never alias in a run that does not reset them while another worker runs. -/
theorem run_slotsApart {events : List Event}
    (h : (init_structures opt).run opt alg sort oracle events = some m)
    (halone : RunsAlone opt alg sort oracle (init_structures opt) events) : SlotsApart opt m :=
  (run_slotsBelow h halone init_slotsBelow).slotsApart

/-- The first worker is scheduled and forks, and then one of the two is scheduled. -/
def firstRound : List Event :=
  [.initial_fork 101 100 (sent [90]), .schedule_worker zeroDinfo zeroDinfo,
    .fork_request 101 (sent [7, 8]) (sent [101, 102]), .schedule_worker zeroDinfo zeroDinfo]

def runFrom (opt : Options ℤ) (events : List Event) : Option (Manager ℤ MLBBID) :=
  (init_structures opt).run opt (insertionSort WorkerInfo.priority).heap
    (insertionSort WorkerInfo.priority) (blockOracle fun _ => 0) events

theorem run_slotsApart_firstRound :
    ∃ m, runFrom bfsOptions firstRound = some m ∧ m.held = [16, 8] ∧ SlotsApart bfsOptions m := by
  have h : runFrom bfsOptions firstRound = some _ := rfl
  refine ⟨_, h, rfl, ?_⟩
  exact run_slotsApart _ _ _ _ h (runsAlone_of_maxRunning_one rfl firstRound (by decide))

/-- With two running workers, the one that is still running when the other one succeeds
keeps a slot that a new worker gets. -/
theorem slots_alias :
    ∃ m, runFrom { bfsOptions with maxRunning := 2 }
        (firstRound ++ [.schedule_worker zeroDinfo zeroDinfo, .success 101 (sent [91]),
          .schedule_worker zeroDinfo zeroDinfo,
          .fork_request 101 (sent [7, 8]) (sent [101, 103])]) = some m ∧
      m.held = [8, 16, 16] ∧ ¬ SlotsApart { bfsOptions with maxRunning := 2 } m := by
  refine ⟨_, rfl, rfl, fun h => ?_⟩
  have hapart : [8, 16, 16].Pairwise (Apart 8) := h.apart
  exact absurd hapart (by decide)

end Manager

end TaseVerifier
