import TaseVerifier.Manager.ForkRequest

/-! Fork elision: a destination that has no process is reached again from the snapshot at
the start of the round, by replaying the blocks that the worker's features list. -/

namespace TaseVerifier

/-- The symbolic branches of the client from some point on, with the block of each
destination. -/
inductive BranchTree where
  | done
  | branch (dests : List (MLBBID × BranchTree))

namespace BranchTree

/-- The destinations of each branch lie in different blocks. -/
inductive Distinct : BranchTree → Prop
  | done : Distinct .done
  | branch {dests : List (MLBBID × BranchTree)} (nodup : (dests.map Prod.fst).Nodup)
      (subtrees : ∀ d ∈ dests, Distinct d.2) : Distinct (.branch dests)

/-- The blocks lead from the first tree to the second one. -/
inductive Path : BranchTree → List MLBBID → BranchTree → Prop
  | nil (t) : Path t [] t
  | cons {dests id t ids t'} (mem : (id, t) ∈ dests) : Path t ids t' →
      Path (.branch dests) (id :: ids) t'

end BranchTree

/-- A process of the client, with its copy of the features. -/
structure Process (F : Type) where
  info : F
  inForkElisionReplay : Bool
  forkElisionReplayCtr : ℤ
  plzDontForkBomb : ℤ

/-- What happens at a branch: one of the destinations is taken, the manager is asked to
fork, the process exits, or it compares a block with one behind the end of the fragment. -/
inductive Outcome (F : Type) where
  | took (i : ℕ) (p : Process F)
  | asks (p : Process F)
  | exits
  | undefined

/-- The outcome of a branch, and the positions of the fragment that were read for it. -/
structure Branching (F : Type) where
  reads : List ℤ
  outcome : Outcome F

namespace Process

variable {F : Type}

/-- A snapshot that is continued with the features of a worker. -/
def startReplay (snapshot : Process F) (mlinfo : ℕ → F) (pinfo : ℕ) : Process F :=
  { snapshot with
    info := mlinfo pinfo
    inForkElisionReplay := true
    forkElisionReplayCtr := 0 }

/-- The process forks the next snapshot, while it may. -/
def workerPrepForReplay (p : Process F) : Process F × Option (Process F) :=
  if 0 ≤ p.plzDontForkBomb then
    let p := { p with plzDontForkBomb := p.plzDontForkBomb - 1 }
    (p, some p)
  else (p, none)

/-- The process that a worker without a process runs on. -/
def replayProcess (snapshot : Process F) (mlinfo : ℕ → F) (pinfo : ℕ) : Process F :=
  (snapshot.startReplay mlinfo pinfo).workerPrepForReplay.1

def fragAt (frag : List MLBBID) (ctr : ℤ) : Option MLBBID :=
  if 0 ≤ ctr then frag[ctr.toNat]? else none

/-- The fragment's next block has been taken. -/
def advance (frag : List MLBBID) (p : Process F) : Process F :=
  if p.forkElisionReplayCtr + 1 = frag.length then
    { p with inForkElisionReplay := false, forkElisionReplayCtr := -1 }
  else { p with forkElisionReplayCtr := p.forkElisionReplayCtr + 1 }

variable (logEvaluates useFallBackOracle : Bool) (getExecutionFragment : F → List MLBBID)

/-- The loop over the destinations. The position is logged after it has been advanced. -/
def replayLoop (frag : List MLBBID) (p : Process F) : ℕ → List MLBBID → Branching F
  | _, [] => ⟨if logEvaluates then [p.forkElisionReplayCtr] else [], .exits⟩
  | i, dest :: dests =>
    let ctr := p.forkElisionReplayCtr
    match fragAt frag ctr with
    | none => ⟨[ctr], .undefined⟩
    | some id =>
      if dest = id then
        ⟨ctr :: if logEvaluates then [ctr + 1] else [], .took i (p.advance frag)⟩
      else
        let rest := replayLoop frag p (i + 1) dests
        ⟨ctr :: rest.reads, rest.outcome⟩

/-- A branch of the client up to the request to fork. -/
def tase_fork_inner (p : Process F) (dests : List MLBBID) : Branching F :=
  let p := if useFallBackOracle && p.inForkElisionReplay &&
      (getExecutionFragment p.info).isEmpty then { p with inForkElisionReplay := false } else p
  if p.inForkElisionReplay then replayLoop logEvaluates (getExecutionFragment p.info) p 0 dests
  else ⟨[], .asks p⟩

/-- Whether the next branch is replayed. -/
def replaying (p : Process F) : Bool :=
  p.inForkElisionReplay && !(useFallBackOracle && (getExecutionFragment p.info).isEmpty)

/-- What a process has done: the blocks it went through, where it is, and the positions of
the fragment that it has read. -/
structure Walk (F : Type) where
  path : List MLBBID
  tree : BranchTree
  process : Process F
  reads : List ℤ

/-- The replayed branches of a process, up to a number of them. -/
def replay (p : Process F) : ℕ → BranchTree → Option (Walk F)
  | 0, t => some ⟨[], t, p, []⟩
  | _ + 1, .done => some ⟨[], .done, p, []⟩
  | n + 1, .branch dests =>
    let b := tase_fork_inner logEvaluates useFallBackOracle getExecutionFragment p
      (dests.map Prod.fst)
    match b.outcome with
    | .took i p => do
      let (id, t) ← dests[i]?
      let w ← replay p n t
      return { w with path := id :: w.path, reads := b.reads ++ w.reads }
    | .asks p => some ⟨[], .branch dests, p, b.reads⟩
    | .exits => none
    | .undefined => none

/-- The process takes the path of the fragment and nothing else, asks the manager again at
the first branch behind it, and reads nothing behind the fragment's end. -/
def Faithful (p : Process F) (frag : List MLBBID) (t t' : BranchTree) : Prop :=
  ∀ n, ∃ w, replay logEvaluates useFallBackOracle getExecutionFragment p n t = some w ∧
    w.path = frag.take n ∧ (frag.length ≤ n → w.tree = t') ∧
    replaying useFallBackOracle getExecutionFragment w.process = decide (n < frag.length) ∧
    ∀ r ∈ w.reads, 0 ≤ r ∧ r < frag.length

/-! ### What one branch does -/

variable {logEvaluates useFallBackOracle getExecutionFragment} {p : Process F}
  {frag : List MLBBID}

theorem replayLoop_eq {id : MLBBID} (hat : fragAt frag p.forkElisionReplayCtr = some id)
    {dests : List MLBBID} (hnodup : dests.Nodup) {j : ℕ} (hj : dests[j]? = some id) (i : ℕ) :
    replayLoop logEvaluates frag p i dests =
      ⟨List.replicate (j + 1) p.forkElisionReplayCtr ++
        if logEvaluates then [p.forkElisionReplayCtr + 1] else [], .took (i + j) (p.advance frag)⟩ := by
  induction dests generalizing i j with
  | nil => simp at hj
  | cons dest dests ih =>
    obtain ⟨hnotMem, hnodup⟩ := List.nodup_cons.mp hnodup
    simp only [replayLoop, hat]
    cases j with
    | zero =>
      rw [if_pos (Option.some.inj hj)]
      rfl
    | succ j =>
      rw [List.getElem?_cons_succ] at hj
      have hne : dest ≠ id := fun heq => hnotMem (heq ▸ List.mem_of_getElem? hj)
      rw [if_neg hne, ih hnodup hj, Nat.succ_add_eq_add_succ]
      rfl

/-- The process is in the replay, before the given position of its fragment. -/
structure At (getExecutionFragment : F → List MLBBID) (frag : List MLBBID) (k : ℕ)
    (p : Process F) : Prop where
  info : getExecutionFragment p.info = frag
  replay : p.inForkElisionReplay = true
  ctr : p.forkElisionReplayCtr = k

theorem At.replaying {k : ℕ} (hp : At getExecutionFragment frag k p) (hk : k < frag.length) :
    replaying useFallBackOracle getExecutionFragment p = true := by
  have hne : frag.isEmpty = false := by
    rw [List.isEmpty_eq_false_iff]
    exact List.ne_nil_of_length_pos (Nat.zero_lt_of_lt hk)
  rw [Process.replaying, hp.replay, hp.info, hne]
  simp

theorem tase_fork_inner_of_replaying
    (h : replaying useFallBackOracle getExecutionFragment p = true) (dests : List MLBBID) :
    tase_fork_inner logEvaluates useFallBackOracle getExecutionFragment p dests =
      replayLoop logEvaluates (getExecutionFragment p.info) p 0 dests := by
  obtain ⟨hreplay, hback⟩ := Bool.and_eq_true_iff.mp h
  have hcond : ¬ (useFallBackOracle && p.inForkElisionReplay &&
      (getExecutionFragment p.info).isEmpty) = true := by
    rw [hreplay, Bool.and_true, Bool.not_eq_true]
    exact (Bool.not_eq_true' _).mp hback
  rw [tase_fork_inner]
  simp only [if_neg hcond, if_pos hreplay]

/-- Outside the replay the manager is asked. -/
theorem tase_fork_inner_of_left
    (h : replaying useFallBackOracle getExecutionFragment p = false) (dests : List MLBBID) :
    ∃ q, tase_fork_inner logEvaluates useFallBackOracle getExecutionFragment p dests =
        ⟨[], .asks q⟩ ∧ replaying useFallBackOracle getExecutionFragment q = false := by
  cases hreplay : p.inForkElisionReplay with
  | false => exact ⟨p, by simp [tase_fork_inner, hreplay], h⟩
  | true =>
    refine ⟨{ p with inForkElisionReplay := false }, ?_, rfl⟩
    have hcond : (useFallBackOracle && p.inForkElisionReplay &&
        (getExecutionFragment p.info).isEmpty) = true := by
      rw [hreplay, Bool.and_true]
      simpa [Process.replaying, hreplay] using h
    simp [tase_fork_inner, hcond]

/-- One replayed branch takes the fragment's next block. -/
theorem tase_fork_inner_at {k : ℕ} (hp : At getExecutionFragment frag k p) {id : MLBBID}
    (hid : frag[k]? = some id) {dests : List MLBBID} (hnodup : dests.Nodup) {j : ℕ}
    (hj : dests[j]? = some id) :
    tase_fork_inner logEvaluates useFallBackOracle getExecutionFragment p dests =
      ⟨List.replicate (j + 1) (k : ℤ) ++ if logEvaluates then [(k : ℤ) + 1] else [],
        .took j (p.advance frag)⟩ := by
  have hk : k < frag.length := (List.getElem?_eq_some_iff.mp hid).1
  have hat : fragAt frag p.forkElisionReplayCtr = some id := by
    rw [hp.ctr, fragAt, if_pos (Int.natCast_nonneg k), Int.toNat_natCast, hid]
  rw [tase_fork_inner_of_replaying (hp.replaying hk), hp.info, replayLoop_eq hat hnodup hj,
    hp.ctr, Nat.zero_add]

theorem advance_at {k : ℕ} (hp : At getExecutionFragment frag k p) (hk : k + 1 < frag.length) :
    At getExecutionFragment frag (k + 1) (p.advance frag) := by
  have hne : p.forkElisionReplayCtr + 1 ≠ frag.length := by
    rw [hp.ctr]
    omega
  rw [advance, if_neg hne]
  exact ⟨hp.info, hp.replay, by simp [hp.ctr]⟩

theorem advance_last {k : ℕ} (hp : At getExecutionFragment frag k p) (hk : k + 1 = frag.length) :
    (p.advance frag).inForkElisionReplay = false := by
  have heq : p.forkElisionReplayCtr + 1 = frag.length := by
    rw [hp.ctr]
    omega
  rw [advance, if_pos heq]

/-- A process that has left the replay goes no further. -/
theorem replay_of_left (h : replaying useFallBackOracle getExecutionFragment p = false) (n : ℕ)
    (t : BranchTree) :
    ∃ q, replay logEvaluates useFallBackOracle getExecutionFragment p n t = some ⟨[], t, q, []⟩ ∧
      replaying useFallBackOracle getExecutionFragment q = false := by
  cases n with
  | zero => exact ⟨p, rfl, h⟩
  | succ n =>
    cases t with
    | done => exact ⟨p, rfl, h⟩
    | branch dests =>
      obtain ⟨q, hq, hleft⟩ := tase_fork_inner_of_left h (dests.map Prod.fst)
      exact ⟨q, by rw [replay, hq], hleft⟩

/-- One replayed branch, and the walk from the process and the tree that it leads to. -/
theorem replay_branch (logEvaluates useFallBackOracle : Bool) {k : ℕ}
    (hp : At getExecutionFragment frag k p) {id : MLBBID}
    (hid : frag[k]? = some id) {dests : List (MLBBID × BranchTree)}
    (hnodup : (dests.map Prod.fst).Nodup) {t : BranchTree} (hmem : (id, t) ∈ dests) (n : ℕ) :
    ∃ j, replay logEvaluates useFallBackOracle getExecutionFragment p (n + 1) (.branch dests) =
      (replay logEvaluates useFallBackOracle getExecutionFragment (p.advance frag) n t).map
        fun w => { w with
          path := id :: w.path
          reads := (List.replicate (j + 1) (k : ℤ) ++
            if logEvaluates then [(k : ℤ) + 1] else []) ++ w.reads } := by
  obtain ⟨j, hj⟩ := List.mem_iff_getElem?.mp hmem
  have hj' : (dests.map Prod.fst)[j]? = some id := by rw [List.getElem?_map, hj]; rfl
  refine ⟨j, ?_⟩
  rw [replay, tase_fork_inner_at hp hid hnodup hj']
  simp only [hj, Option.bind_eq_bind, Option.bind_some]
  rw [Option.map_eq_bind]
  rfl

/-! ### Whole replays -/

/-- These blocks of the fragment are still to be taken. -/
def Ready (useFallBackOracle : Bool) (getExecutionFragment : F → List MLBBID)
    (frag : List MLBBID) (p : Process F) : List MLBBID → Prop
  | [] => replaying useFallBackOracle getExecutionFragment p = false
  | id :: ids => ∃ taken, frag = taken ++ id :: ids ∧ At getExecutionFragment frag taken.length p

theorem Ready.advance {id : MLBBID} {ids : List MLBBID}
    (h : Ready useFallBackOracle getExecutionFragment frag p (id :: ids)) :
    Ready useFallBackOracle getExecutionFragment frag (p.advance frag) ids := by
  obtain ⟨taken, hfrag, hp⟩ := h
  have hlen : frag.length = taken.length + 1 + ids.length := by
    rw [hfrag, List.length_append, List.length_cons]
    omega
  cases ids with
  | nil =>
    have hleft := advance_last hp (by rw [hlen, List.length_nil])
    simp only [Ready, replaying, hleft, Bool.false_and]
  | cons id' ids =>
    refine ⟨taken ++ [id], by rw [hfrag, List.append_assoc]; rfl, ?_⟩
    rw [List.length_append]
    exact advance_at hp (by rw [hlen, List.length_cons]; omega)

/-- What is known of a walk that takes these blocks of the fragment. The position behind
the fragment's end is read by the log alone. -/
structure Walked (logEvaluates useFallBackOracle : Bool) (getExecutionFragment : F → List MLBBID)
    (frag ids : List MLBBID) (t' : BranchTree) (n : ℕ) (w : Walk F) : Prop where
  path : w.path = ids.take n
  tree : ids.length ≤ n → w.tree = t'
  replaying : replaying useFallBackOracle getExecutionFragment w.process = decide (n < ids.length)
  reads : ∀ r ∈ w.reads, 0 ≤ r ∧ (r < frag.length ∨ logEvaluates = true ∧ r = frag.length)
  logged : logEvaluates = true → ids.length ≤ n → ids ≠ [] → (frag.length : ℤ) ∈ w.reads

/-- A replayed branch before a walk. -/
theorem Walked.cons {taken ids : List MLBBID} {id : MLBBID} {t' : BranchTree} {n : ℕ} {w : Walk F}
    (h : Walked logEvaluates useFallBackOracle getExecutionFragment frag ids t' n w)
    (hfrag : frag = taken ++ id :: ids) (j : ℕ) :
    Walked logEvaluates useFallBackOracle getExecutionFragment frag (id :: ids) t' (n + 1)
      { w with
        path := id :: w.path
        reads := (List.replicate (j + 1) (taken.length : ℤ) ++
          if logEvaluates then [(taken.length : ℤ) + 1] else []) ++ w.reads } := by
  have hlen : frag.length = taken.length + 1 + ids.length := by
    rw [hfrag, List.length_append, List.length_cons]
    omega
  refine ⟨?_, fun hle => h.tree (Nat.le_of_succ_le_succ hle), ?_, ?_, ?_⟩
  · rw [List.take_succ_cons, h.path]
  · rw [h.replaying, List.length_cons]
    simp
  · intro r hr
    simp only [List.mem_append, List.mem_replicate] at hr
    obtain (⟨-, rfl⟩ | hlog) | hr := hr
    · exact ⟨by omega, .inl (by omega)⟩
    · split at hlog
      next hl =>
        obtain rfl := List.mem_singleton.mp hlog
        refine ⟨by omega, ?_⟩
        obtain hlt | heq := Nat.lt_or_eq_of_le (show taken.length + 1 ≤ frag.length by omega)
        · exact .inl (by omega)
        · exact .inr ⟨hl, by omega⟩
      next => cases hlog
    · exact h.reads r hr
  · intro hl hle _
    by_cases hids : ids = []
    · have heq : (frag.length : ℤ) = taken.length + 1 := by
        rw [hlen, hids, List.length_nil]
        rfl
      simp [hl, heq]
    · exact List.mem_append_right _ (h.logged hl (Nat.le_of_succ_le_succ hle) hids)

theorem replay_walked {ids : List MLBBID}
    (hp : Ready useFallBackOracle getExecutionFragment frag p ids) {t t' : BranchTree}
    (hd : t.Distinct) (hpath : t.Path ids t') (n : ℕ) :
    ∃ w, replay logEvaluates useFallBackOracle getExecutionFragment p n t = some w ∧
      Walked logEvaluates useFallBackOracle getExecutionFragment frag ids t' n w := by
  induction ids generalizing p t n with
  | nil =>
    cases hpath
    obtain ⟨q, hq, hleft⟩ := replay_of_left hp n t'
    exact ⟨_, hq, by simp, fun _ => rfl, by simpa using hleft, by simp, by simp⟩
  | cons id ids ih =>
    obtain ⟨taken, hfrag, hat⟩ := hp
    have hlen : frag.length = taken.length + 1 + ids.length := by
      rw [hfrag, List.length_append, List.length_cons]
      omega
    cases n with
    | zero =>
      refine ⟨_, rfl, rfl, by simp, ?_, by simp, by simp⟩
      rw [hat.replaying (by omega)]
      simp
    | succ n =>
      cases hpath with
      | cons hmem hpath =>
        cases hd with
        | branch hnodup hsub =>
          have hid : frag[taken.length]? = some id := by simp [hfrag]
          obtain ⟨j, hreplay⟩ := replay_branch logEvaluates useFallBackOracle hat hid hnodup hmem n
          obtain ⟨w, hw, hwalked⟩ := ih (Ready.advance ⟨taken, hfrag, hat⟩) (hsub _ hmem) hpath n
          rw [hreplay, hw]
          exact ⟨_, rfl, hwalked.cons hfrag j⟩

theorem replayProcess_at (snapshot : Process F) (mlinfo : ℕ → F) (pinfo : ℕ) :
    At getExecutionFragment (getExecutionFragment (mlinfo pinfo)) 0
      (snapshot.replayProcess mlinfo pinfo) := by
  unfold replayProcess workerPrepForReplay
  split <;> exact ⟨rfl, rfl, rfl⟩

/-- A process at the start of a fragment replays it faithfully, but for what its last
branch logs. -/
theorem faithful_of_at {t t' : BranchTree} (hp : At getExecutionFragment frag 0 p)
    (hd : t.Distinct) (hpath : t.Path frag t') (hne : frag ≠ []) :
    Faithful logEvaluates useFallBackOracle getExecutionFragment p frag t t' ↔
      logEvaluates = false := by
  have hready : Ready useFallBackOracle getExecutionFragment frag p frag := by
    cases frag with
    | nil => exact absurd rfl hne
    | cons id ids => exact ⟨[], rfl, hp⟩
  constructor
  · intro h
    obtain ⟨w, hw, hwalked⟩ := replay_walked hready hd hpath frag.length
    obtain ⟨w', hw', -, -, -, hreads⟩ := h frag.length
    obtain rfl := Option.some.inj (hw.symm.trans hw')
    by_contra hlog
    have hmem := hwalked.logged (eq_true_of_ne_false hlog) (Nat.le_refl _) hne
    exact absurd (hreads _ hmem).2 (lt_irrefl _)
  · intro hlog n
    obtain ⟨w, hw, hwalked⟩ := replay_walked hready hd hpath n
    refine ⟨w, hw, hwalked.path, hwalked.tree, hwalked.replaying, fun r hr => ?_⟩
    obtain ⟨hpos, hlt | ⟨htrue, -⟩⟩ := hwalked.reads r hr
    · exact ⟨hpos, hlt⟩
    · exact absurd (hlog.symm.trans htrue) Bool.false_ne_true

/-- An empty fragment is that of the backup oracle's worker, which replays nothing. -/
theorem faithful_nil {t : BranchTree} (hp : At getExecutionFragment [] 0 p) :
    Faithful logEvaluates useFallBackOracle getExecutionFragment p [] t t ↔
      useFallBackOracle = true := by
  have hreplaying : replaying useFallBackOracle getExecutionFragment p = !useFallBackOracle := by
    simp [replaying, hp.replay, hp.info]
  constructor
  · intro h
    obtain ⟨w, hw, -, -, hleft, -⟩ := h 0
    obtain rfl := Option.some.inj hw
    simpa [hreplaying] using hleft
  · intro hback n
    obtain ⟨q, hq, hleft⟩ := replay_of_left (by rw [hreplaying, hback]; rfl) n t
    exact ⟨_, hq, by simp, fun _ => rfl, by simpa using hleft, by simp⟩

end Process

namespace Manager

open Process

variable {P F : Type} [LinearOrder P] (logEvaluates : Bool)
  (getExecutionFragment : F → List MLBBID) (opt : Options P)

/-- A worker without a process runs on the replay process, which takes the path of the
worker's fragment and then leaves the replay. It reads nothing behind the fragment's end
exactly when the log does not evaluate what it is given, or when the fragment is empty. -/
theorem replay_faithful_iff {m m' : Manager P F} {w : WorkerInfo P} {d : Dinfo} {pid : ℤ}
    (hsetup : m.setup_for_replay w d = some (pid, m')) (snapshot : Process F) {t t' : BranchTree}
    (hd : t.Distinct) (hpath : t.Path (getExecutionFragment (m.mlinfo w.pinfo)) t') :
    pid = m.replay_pid ∧
      (Faithful logEvaluates opt.useFallBackOracle getExecutionFragment
          (snapshot.replayProcess m.mlinfo w.pinfo) (getExecutionFragment (m.mlinfo w.pinfo)) t t' ↔
        if getExecutionFragment (m.mlinfo w.pinfo) = [] then opt.useFallBackOracle = true
        else logEvaluates = false) := by
  refine ⟨(setup_for_replay_eq hsetup).1, ?_⟩
  have hp : At getExecutionFragment (getExecutionFragment (m.mlinfo w.pinfo)) 0
      (snapshot.replayProcess m.mlinfo w.pinfo) := replayProcess_at snapshot m.mlinfo w.pinfo
  split
  next hnil =>
    rw [hnil] at hp hpath ⊢
    cases hpath
    exact faithful_nil hp
  next hne => exact faithful_of_at hp hd hpath hne

/-- A manager with one fragment in its slots. -/
def withFragment (frag : List MLBBID) : Manager ℤ (List MLBBID) :=
  { (init_structures bfsOptions : Manager ℤ (List MLBBID)) with
    mlinfo := Function.update (fun _ => []) 8 frag
    replay_pid := 90 }

/-- A branch with two destinations. -/
theorem distinct_pair {i j : MLBBID} {s t : BranchTree} (hij : i ≠ j) (hs : s.Distinct)
    (ht : t.Distinct) : (BranchTree.branch [(i, s), (j, t)]).Distinct := by
  refine .branch (by simpa using hij) fun d hd => ?_
  obtain rfl | rfl : d = (i, s) ∨ d = (j, t) := by simpa using hd
  · exact hs
  · exact ht

theorem replay_two_blocks :
    (withFragment [7, 4]).setup_for_replay (⟨-1, 101, 1, 0, 8⟩ : WorkerInfo ℤ) (sent [91]) =
        some (90, { withFragment [7, 4] with replay_pid := 91 }) ∧
      Faithful false false id ((⟨[], false, -1, 2000⟩ : Process (List MLBBID)).replayProcess
          (withFragment [7, 4]).mlinfo 8) [7, 4]
        (.branch [(7, .branch [(3, .done), (4, .done)]), (8, .done)]) .done := by
  have hsetup : (withFragment [7, 4]).setup_for_replay (⟨-1, 101, 1, 0, 8⟩ : WorkerInfo ℤ)
      (sent [91]) = some (90, { withFragment [7, 4] with replay_pid := 91 }) := rfl
  have hdistinct : (BranchTree.branch [(7, .branch [(3, .done), (4, .done)]),
      (8, .done)]).Distinct :=
    distinct_pair (by decide) (distinct_pair (by decide) .done .done) .done
  have hpath : (BranchTree.branch [(7, .branch [(3, .done), (4, .done)]), (8, .done)]).Path
      [7, 4] .done :=
    .cons List.mem_cons_self (.cons (List.mem_cons_of_mem _ List.mem_cons_self) (.nil _))
  exact ⟨hsetup, (replay_faithful_iff false id bfsOptions hsetup ⟨[], false, -1, 2000⟩ hdistinct
    hpath).2.mpr (by decide)⟩

/-- The last branch of a replay logs what lies behind the fragment's end. -/
theorem replay_reads_past_end :
    ¬ Faithful true false id ((⟨[], false, -1, 2000⟩ : Process (List MLBBID)).replayProcess
      (withFragment [7]).mlinfo 8) [7] (.branch [(7, .done), (8, .done)]) .done := by
  have hp : At id [7] 0 ((⟨[], false, -1, 2000⟩ : Process (List MLBBID)).replayProcess
      (withFragment [7]).mlinfo 8) := ⟨rfl, rfl, rfl⟩
  have hdistinct : (BranchTree.branch [(7, .done), (8, .done)]).Distinct :=
    distinct_pair (by decide) .done .done
  rw [faithful_of_at hp hdistinct (.cons List.mem_cons_self (.nil _)) (List.cons_ne_nil _ _)]
  decide

end Manager

end TaseVerifier
