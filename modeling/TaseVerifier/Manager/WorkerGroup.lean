import Mathlib.Data.List.Perm.Subperm
import TaseVerifier.Library.Heap

/-! The groups in which the manager keeps its workers. A group is a queue or a stack on a
deque, or a priority queue. Priorities are values of a linear order, and the algorithms
that arrange heaps are those of the standard library. -/

namespace TaseVerifier

open Library

/-- `pinfo` is the address of the worker's features in shared memory. -/
structure WorkerInfo (P : Type) where
  pid : ℤ
  originator : ℤ
  branches : ℕ
  priority : P
  pinfo : ℕ
  deriving DecidableEq

inductive WorkerGroupType where
  | STACK | QUEUE | PQ
  deriving DecidableEq

/-- `pq` is the vector of the priority queue, which keeps it a heap. -/
structure WorkerGroup (P : Type) [LinearOrder P] where
  type : WorkerGroupType
  pq : List (WorkerInfo P)
  dq : List (WorkerInfo P)
  heap : IsHeap WorkerInfo.priority pq

namespace WorkerGroup

variable {P : Type} [LinearOrder P]

def new (type : WorkerGroupType) : WorkerGroup P where
  type := type
  pq := []
  dq := []
  heap := isHeap_nil

/-- The workers of a group, in the order of its container. -/
def workers (g : WorkerGroup P) : List (WorkerInfo P) := if g.type = .PQ then g.pq else g.dq

def size (g : WorkerGroup P) : ℕ := if g.type = .PQ then g.pq.length else g.dq.length

/-- Removes every worker; the processes of those that have one are killed. -/
def cleanUp (g : WorkerGroup P) : WorkerGroup P :=
  if g.type = .PQ then { g with pq := [], heap := isHeap_nil } else { g with dq := [] }

variable (alg : HeapAlgorithms (WorkerInfo.priority (P := P)))

/-- Nothing may be popped from an empty group. -/
def pop (g : WorkerGroup P) : Option (WorkerInfo P × WorkerGroup P) :=
  match g.type with
  | .PQ =>
    match h : g.pq with
    | [] => none
    | best :: rest => some (best, { g with
        pq := (alg.pop_heap (best :: rest)).dropLast
        heap := by
          obtain ⟨l, heq, -, hl⟩ := alg.pop_heap_spec best rest (h ▸ g.heap)
          rwa [heq, List.dropLast_concat] })
  | .QUEUE =>
    match g.dq with
    | [] => none
    | best :: dq => some (best, { g with dq := dq })
  | .STACK =>
    match g.dq.getLast? with
    | none => none
    | some best => some (best, { g with dq := g.dq.dropLast })

def push (g : WorkerGroup P) (w : WorkerInfo P) : WorkerGroup P :=
  if g.type = .PQ then
    { g with pq := alg.push_heap (g.pq ++ [w]), heap := alg.push_heap_isHeap g.pq w g.heap }
  else { g with dq := g.dq ++ [w] }

/-- The first worker with the pid; a priority queue exits. -/
def find (g : WorkerGroup P) (pid : ℤ) : Option (Option (WorkerInfo P)) :=
  if g.type = .PQ then none else some (g.dq.find? (·.pid = pid))

/-- The first worker with the pid is removed, and what is left is arranged as a heap; a
priority queue exits. -/
def get (g : WorkerGroup P) (pid : ℤ) : Option (Option (WorkerInfo P) × WorkerGroup P) :=
  if g.type = .PQ then none else
    match g.dq.find? (·.pid = pid) with
    | none => some (none, g)
    | some w => some (some w, { g with dq := alg.make_heap (g.dq.eraseP (·.pid = pid)) })

/-! ### Runs -/

inductive Op (P : Type) where
  | push (w : WorkerInfo P)
  | pop
  | find (pid : ℤ)
  | get (pid : ℤ)

/-- The worker that an operation returns and the group after it. -/
def step (g : WorkerGroup P) : Op P → Option (Option (WorkerInfo P) × WorkerGroup P)
  | .push w => some (none, g.push alg w)
  | .pop => (g.pop alg).map fun r => (some r.1, r.2)
  | .find pid => (g.find pid).map fun r => (r, g)
  | .get pid => g.get alg pid

abbrev Trace (P : Type) := List (Op P × Option (WorkerInfo P))

def run (g : WorkerGroup P) : List (Op P) → Option (Trace P × WorkerGroup P)
  | [] => some ([], g)
  | op :: ops => (step alg g op).bind fun r => (run r.2 ops).map fun s => ((op, r.1) :: s.1, s.2)

/-- The order in which workers are to leave a group whose workers were pushed in the order
of the list. -/
inductive Follows (type : WorkerGroupType) :
    List (WorkerInfo P) → Trace P → List (WorkerInfo P) → Prop
  | nil (l) : Follows type l [] l
  | push {l l' tr w} : Follows type (l ++ [w]) tr l' → Follows type l ((.push w, none) :: tr) l'
  | popQueue {l l' tr w} (h : type = .QUEUE) :
      Follows type l tr l' → Follows type (w :: l) ((.pop, some w) :: tr) l'
  | popStack {l l' tr w} (h : type = .STACK) :
      Follows type l tr l' → Follows type (l ++ [w]) ((.pop, some w) :: tr) l'
  | popBest {l₁ l₂ l' tr w} (h : type = .PQ)
      (best : ∀ v ∈ l₁ ++ w :: l₂, v.priority ≤ w.priority) :
      Follows type (l₁ ++ l₂) tr l' → Follows type (l₁ ++ w :: l₂) ((.pop, some w) :: tr) l'
  | found {l l' tr w} (mem : w ∈ l) :
      Follows type l tr l' → Follows type l ((.find w.pid, some w) :: tr) l'
  | notFound {l l' tr pid} (absent : ∀ w ∈ l, w.pid ≠ pid) :
      Follows type l tr l' → Follows type l ((.find pid, none) :: tr) l'
  | got {l₁ l₂ l' tr w} :
      Follows type (l₁ ++ l₂) tr l' → Follows type (l₁ ++ w :: l₂) ((.get w.pid, some w) :: tr) l'
  | notGot {l l' tr pid} (absent : ∀ w ∈ l, w.pid ≠ pid) :
      Follows type l tr l' → Follows type l ((.get pid, none) :: tr) l'

/-- The workers that stay when one is removed by its pid make a heap only as they stand. -/
def GetKeeps (g : WorkerGroup P) : Op P → Prop
  | .get pid => (∃ w ∈ g.dq, w.pid = pid) →
      OnlyHeap WorkerInfo.priority (g.dq.eraseP (·.pid = pid))
  | _ => True

/-- Each operation of a run keeps the deque in order. -/
def KeepsOrder (g : WorkerGroup P) : List (Op P) → Prop
  | [] => True
  | op :: ops => GetKeeps g op ∧ ∀ r, step alg g op = some r → KeepsOrder r.2 ops

def pushed (ops : List (Op P)) : List (WorkerInfo P) := ops.filterMap fun
  | .push w => some w
  | _ => none

/-- The workers that have left the group. -/
def taken (tr : Trace P) : List (WorkerInfo P) := tr.filterMap fun
  | (.pop, w) => w
  | (.get _, w) => w
  | _ => none

section Follows

variable {type : WorkerGroupType} {l l' : List (WorkerInfo P)} {tr : Trace P}
  {w : WorkerInfo P} {pid : ℤ}

theorem Follows.of_push (h : Follows type l ((.push w, none) :: tr) l') :
    Follows type (l ++ [w]) tr l' := by
  generalize heq : (Op.push w, none) :: tr = tr' at h
  cases h <;> simp_all

theorem Follows.of_get (h : Follows type l ((.get pid, some w) :: tr) l') :
    ∃ l₁ l₂, l = l₁ ++ w :: l₂ ∧ Follows type (l₁ ++ l₂) tr l' := by
  generalize heq : (Op.get pid, some w) :: tr = tr' at h
  cases h with
  | @got l₁ l₂ _ _ v hf =>
    obtain ⟨hop, rfl⟩ := List.cons.inj heq
    obtain rfl : w = v := Option.some.inj (Prod.mk.inj hop).2
    exact ⟨l₁, l₂, rfl, hf⟩
  | _ => simp_all

theorem Follows.of_pop_queue (h : Follows .QUEUE l ((.pop, some w) :: tr) l') :
    ∃ l₁, l = w :: l₁ := by
  generalize heq : (Op.pop, some w) :: tr = tr' at h
  cases h <;> simp_all

end Follows

/-! ### What one operation does -/

variable {alg} {g g' : WorkerGroup P} {w : WorkerInfo P}

/-- The three ways in which a worker is popped. -/
theorem pop_cases (h : g.pop alg = some (w, g')) :
    (g.type = .PQ ∧ g'.type = .PQ ∧ (w :: g'.pq).Perm g.pq ∧
      ∀ v ∈ g.pq, v.priority ≤ w.priority) ∨
    (g.type = .QUEUE ∧ g'.type = .QUEUE ∧ g.dq = w :: g'.dq) ∨
    (g.type = .STACK ∧ g'.type = .STACK ∧ g.dq = g'.dq ++ [w]) := by
  unfold pop at h
  split at h
  next ht =>
    refine .inl ⟨ht, ?_⟩
    split at h
    · cases h
    next best rest hpq =>
      obtain ⟨rfl, rfl⟩ := Prod.mk.inj (Option.some.inj h)
      have hheap : IsHeap WorkerInfo.priority (best :: rest) := hpq ▸ g.heap
      obtain ⟨l, heq, hperm, -⟩ := alg.pop_heap_spec best rest hheap
      refine ⟨ht, ?_, ?_⟩
      · dsimp only
        rw [heq, List.dropLast_concat, hpq]
        exact hperm.cons best
      · rw [hpq]
        exact fun v hv => hheap.le_front hv
  next ht =>
    refine .inr (.inl ⟨ht, ?_⟩)
    split at h
    · cases h
    next best dq hdq =>
      obtain ⟨rfl, rfl⟩ := Prod.mk.inj (Option.some.inj h)
      exact ⟨ht, hdq⟩
  next ht =>
    refine .inr (.inr ⟨ht, ?_⟩)
    split at h
    · cases h
    next best hdq =>
      obtain ⟨rfl, rfl⟩ := Prod.mk.inj (Option.some.inj h)
      exact ⟨ht, (List.dropLast_append_getLast? _ hdq).symm⟩

theorem pop_queue {dq : List (WorkerInfo P)} (ht : g.type = .QUEUE) (h : g.dq = w :: dq) :
    g.pop alg = some (w, { g with dq := dq }) := by
  unfold pop
  split <;> simp_all

/-- A removed worker and the deque around it. -/
theorem find_split {pid : ℤ} (h : g.dq.find? (·.pid = pid) = some w) :
    w.pid = pid ∧ ∃ l₁ l₂, g.dq = l₁ ++ w :: l₂ ∧ g.dq.eraseP (·.pid = pid) = l₁ ++ l₂ := by
  obtain ⟨hw, l₁, l₂, hdq, hno⟩ := List.find?_eq_some_iff_append.mp h
  have hpid : w.pid = pid := of_decide_eq_true hw
  refine ⟨hpid, l₁, l₂, hdq, ?_⟩
  rw [hdq, List.eraseP_append_right _ (by simpa using hno)]
  simp [hpid]

theorem get_cases {pid : ℤ} {o : Option (WorkerInfo P)} (h : g.get alg pid = some (o, g')) :
    g.type ≠ .PQ ∧
    ((o = none ∧ g' = g ∧ ∀ v ∈ g.dq, v.pid ≠ pid) ∨
     ∃ w, o = some w ∧ g.dq.find? (·.pid = pid) = some w ∧
      g' = { g with dq := alg.make_heap (g.dq.eraseP (·.pid = pid)) }) := by
  unfold get at h
  split at h
  · cases h
  next ht =>
    refine ⟨ht, ?_⟩
    split at h
    next hf =>
      obtain ⟨rfl, rfl⟩ := Prod.mk.inj (Option.some.inj h)
      refine .inl ⟨rfl, rfl, fun v hv => ?_⟩
      simpa using List.find?_eq_none.mp hf v hv
    next w hf =>
      obtain ⟨rfl, rfl⟩ := Prod.mk.inj (Option.some.inj h)
      exact .inr ⟨w, rfl, hf, rfl⟩

theorem workers_of_ne (h : g.type ≠ .PQ) : g.workers = g.dq := if_neg h

theorem workers_of_eq (h : g.type = .PQ) : g.workers = g.pq := if_pos h

/-- The operations that have no result are those that the callers do not make. -/
theorem step_eq_none_iff (op : Op P) :
    step alg g op = none ↔ (op = .pop ∧ g.workers = []) ∨
      (g.type = .PQ ∧ ∃ pid, op = .find pid ∨ op = .get pid) := by
  cases op with
  | push w => simp [step]
  | pop =>
    simp only [step, Option.map_eq_none_iff, true_and, reduceCtorEq, or_self, exists_false,
      and_false, or_false]
    unfold pop
    split
    next ht =>
      rw [workers_of_eq ht]
      split <;> simp_all
    next ht =>
      rw [workers_of_ne (by rw [ht]; decide)]
      split <;> simp_all
    next ht =>
      rw [workers_of_ne (by rw [ht]; decide)]
      split
      next hl => simp_all
      next hl =>
        have hne : g.dq ≠ [] := fun h0 => by simp [h0] at hl
        simp [hne]
  | find pid => simp [step, find]
  | get pid =>
    simp only [step, get, reduceCtorEq, false_and, false_or, Op.get.injEq, exists_eq', and_true]
    split
    next ht => simp [ht]
    next ht => split <;> simp [ht]

/-- No operation loses or doubles a worker. -/
theorem step_perm {op : Op P} {o : Option (WorkerInfo P)} (h : step alg g op = some (o, g')) :
    g'.type = g.type ∧
      (taken [(op, o)] ++ g'.workers).Perm (g.workers ++ pushed [op]) := by
  cases op with
  | push w =>
    obtain ⟨rfl, rfl⟩ := Prod.mk.inj (Option.some.inj h)
    by_cases ht : g.type = .PQ
    · rw [push, if_pos ht]
      have hw : g.workers = g.pq := workers_of_eq ht
      refine ⟨rfl, ?_⟩
      rw [hw]
      refine .trans (.of_eq (workers_of_eq ht)) (alg.push_heap_perm (g.pq ++ [w]))
    · rw [push, if_neg ht]
      have hw : g.workers = g.dq := workers_of_ne ht
      refine ⟨rfl, ?_⟩
      rw [hw]
      exact .of_eq (workers_of_ne ht)
  | pop =>
    obtain ⟨⟨w, g₁⟩, hp, heq⟩ := Option.map_eq_some_iff.mp h
    obtain ⟨rfl, rfl⟩ := Prod.mk.inj heq
    change _ ∧ (w :: g₁.workers).Perm (g.workers ++ [])
    rw [List.append_nil]
    obtain ⟨ht, ht', hperm, -⟩ | ⟨ht, ht', hdq⟩ | ⟨ht, ht', hdq⟩ := pop_cases hp
    · refine ⟨ht'.trans ht.symm, ?_⟩
      rwa [workers_of_eq ht, workers_of_eq ht']
    · have hw : g.workers = g.dq := workers_of_ne (by rw [ht]; decide)
      have hw' : g₁.workers = g₁.dq := workers_of_ne (by rw [ht']; decide)
      exact ⟨ht'.trans ht.symm, by rw [hw, hw', hdq]⟩
    · have hw : g.workers = g.dq := workers_of_ne (by rw [ht]; decide)
      have hw' : g₁.workers = g₁.dq := workers_of_ne (by rw [ht']; decide)
      refine ⟨ht'.trans ht.symm, ?_⟩
      rw [hw, hw', hdq]
      exact (List.perm_append_singleton w g₁.dq).symm
  | find pid =>
    obtain ⟨r, hf, heq⟩ := Option.map_eq_some_iff.mp h
    obtain ⟨rfl, rfl⟩ := Prod.mk.inj heq
    exact ⟨rfl, by simp [taken, pushed]⟩
  | get pid =>
    obtain ⟨ht, ⟨rfl, rfl, -⟩ | ⟨w, rfl, hf, rfl⟩⟩ := get_cases h
    · exact ⟨rfl, by simp [taken, pushed]⟩
    · have hw : g.workers = g.dq := workers_of_ne ht
      refine ⟨rfl, ?_⟩
      obtain ⟨-, l₁, l₂, hdq, herase⟩ := find_split hf
      have hleft : (alg.make_heap (g.dq.eraseP (·.pid = pid))).Perm (l₁ ++ l₂) :=
        herase ▸ alg.make_heap_perm _
      have hw' : ({ g with dq := alg.make_heap (g.dq.eraseP (·.pid = pid)) } :
          WorkerGroup P).workers = alg.make_heap (g.dq.eraseP (·.pid = pid)) := workers_of_ne ht
      have hl : g.workers ++ pushed [Op.get pid] = l₁ ++ w :: l₂ := by
        rw [hw, hdq]
        exact List.append_nil _
      rw [hl, hw']
      exact (hleft.cons w).trans List.perm_middle.symm

theorem push_workers (alg : HeapAlgorithms (WorkerInfo.priority (P := P))) (g : WorkerGroup P)
    (w : WorkerInfo P) : (g.push alg w).workers.Perm (g.workers ++ [w]) :=
  (step_perm (show step alg g (.push w) = _ from rfl)).2

theorem foldl_push_workers {α : Type} (alg : HeapAlgorithms (WorkerInfo.priority (P := P)))
    (f : α → WorkerInfo P) (l : List α) (g : WorkerGroup P) :
    (l.foldl (fun g a => g.push alg (f a)) g).workers.Perm (g.workers ++ l.map f) := by
  induction l generalizing g with
  | nil => simp
  | cons a l ih =>
    rw [List.foldl_cons, List.map_cons]
    refine (ih _).trans (((push_workers alg g (f a)).append_right _).trans ?_)
    rw [List.append_assoc]
    rfl

theorem get_workers {pid : ℤ} (h : g.get alg pid = some (some w, g')) :
    w.pid = pid ∧ (w :: g'.workers).Perm g.workers := by
  have hperm := (step_perm (show step alg g (.get pid) = _ from h)).2
  obtain ⟨-, ⟨h0, -⟩ | ⟨v, hv, hf, -⟩⟩ := get_cases h
  · cases h0
  · obtain rfl := Option.some.inj hv
    rw [show pushed [Op.get pid] = ([] : List (WorkerInfo P)) from rfl, List.append_nil] at hperm
    exact ⟨(find_split hf).1, hperm⟩

theorem pop_workers (h : g.pop alg = some (w, g')) : (w :: g'.workers).Perm g.workers := by
  have hstep : step alg g .pop = some (some w, g') := by rw [step, h]; rfl
  have hperm := (step_perm hstep).2
  rwa [show pushed [Op.pop] = ([] : List (WorkerInfo P)) from rfl, List.append_nil] at hperm

@[simp] theorem workers_cleanUp (g : WorkerGroup P) : g.cleanUp.workers = [] := by
  unfold cleanUp
  split
  next h => exact workers_of_eq h
  next h => exact workers_of_ne h

@[simp] theorem workers_new (type : WorkerGroupType) :
    (new type : WorkerGroup P).workers = [] := by
  unfold workers new
  split <;> rfl

theorem size_eq (g : WorkerGroup P) : g.size = g.workers.length := by
  unfold size workers
  split <;> rfl

theorem get_subperm {pid : ℤ} {r : Option (WorkerInfo P) × WorkerGroup P}
    (h : g.get alg pid = some r) : r.2.workers.Subperm g.workers := by
  obtain ⟨v, g'⟩ := r
  obtain ⟨-, ⟨-, rfl, -⟩ | ⟨w, rfl, -, -⟩⟩ := get_cases h
  · exact List.Subperm.refl _
  · exact (List.sublist_cons_self w _).subperm.trans (get_workers h).2.subperm

theorem find_workers {pid : ℤ} (h : g.find pid = some (some w)) : w.pid = pid ∧ w ∈ g.dq := by
  unfold find at h
  split at h
  · cases h
  · have hf := Option.some.inj h
    exact ⟨(find_split hf).1, List.mem_of_find?_eq_some hf⟩

/-- A worker that is found is the one that is removed. -/
theorem get_of_find {pid : ℤ} {r : Option (WorkerInfo P) × WorkerGroup P}
    (hf : g.find pid = some (some w)) (h : g.get alg pid = some r) : r.1 = some w := by
  obtain ⟨ht, ⟨-, -, hno⟩ | ⟨v, hv, hd, -⟩⟩ := get_cases h
  · obtain ⟨hpid, hmem⟩ := find_workers hf
    exact absurd hpid (hno w hmem)
  · rw [find, if_neg ht, hd] at hf
    rw [hv, Option.some.inj hf]

/-- The removals by pid that keep the order of the deque, with every library. -/
theorem getKeeps_iff {pid : ℤ} (ht : g.type ≠ .PQ) (hf : ∃ w ∈ g.dq, w.pid = pid) :
    GetKeeps g (.get pid) ↔ ∀ (alg : HeapAlgorithms (WorkerInfo.priority (P := P))) o g',
      g.get alg pid = some (o, g') → g'.dq = g.dq.eraseP (·.pid = pid) := by
  obtain ⟨w, hw⟩ : ∃ w, g.dq.find? (·.pid = pid) = some w := by
    obtain ⟨v, hv, hpid⟩ := hf
    exact Option.isSome_iff_exists.mp (List.find?_isSome.mpr ⟨v, hv, by simpa using hpid⟩)
  have hget : ∀ alg, g.get alg pid =
      some (some w, { g with dq := alg.make_heap (g.dq.eraseP (·.pid = pid)) }) := by
    intro alg
    rw [get, if_neg ht, hw]
  rw [GetKeeps, imp_iff_right hf, onlyHeap_iff]
  constructor
  · intro h alg o g' heq
    rw [hget alg] at heq
    obtain ⟨-, rfl⟩ := Prod.mk.inj (Option.some.inj heq)
    exact h alg
  · exact fun h alg => h alg _ _ (hget alg)

/-! ### Whole runs -/

theorem run_cons {op : Op P} {ops : List (Op P)} {tr : Trace P}
    (h : run alg g (op :: ops) = some (tr, g')) :
    ∃ o g₁ tr', step alg g op = some (o, g₁) ∧ run alg g₁ ops = some (tr', g') ∧
      tr = (op, o) :: tr' := by
  obtain ⟨⟨o, g₁⟩, hs, hr⟩ := Option.bind_eq_some_iff.mp h
  obtain ⟨⟨tr', g₂⟩, hrun, heq⟩ := Option.map_eq_some_iff.mp hr
  obtain ⟨rfl, rfl⟩ := Prod.mk.inj heq
  exact ⟨o, g₁, tr', hs, hrun, rfl⟩

theorem run_perm {ops : List (Op P)} {tr : Trace P} (h : run alg g ops = some (tr, g')) :
    (taken tr ++ g'.workers).Perm (g.workers ++ pushed ops) := by
  induction ops generalizing g tr with
  | nil =>
    obtain ⟨rfl, rfl⟩ := Prod.mk.inj (Option.some.inj h)
    simp [taken, pushed]
  | cons op ops ih =>
    obtain ⟨o, g₁, tr', hs, hrun, rfl⟩ := run_cons h
    have htk : taken ((op, o) :: tr') = taken [(op, o)] ++ taken tr' :=
      List.filterMap_append (l := [(op, o)])
    have hpu : pushed (op :: ops) = pushed [op] ++ pushed ops := List.filterMap_append (l := [op])
    rw [htk, hpu, List.append_assoc, ← List.append_assoc g.workers]
    refine ((ih hrun).append_left _).trans ?_
    rw [← List.append_assoc]
    exact (step_perm hs).2.append_right _

/-- The group holds the workers of the list, a deque in its order. -/
def Holds (g : WorkerGroup P) (l : List (WorkerInfo P)) : Prop :=
  if g.type = .PQ then g.pq.Perm l else g.dq = l

/-- One operation that keeps the deque in order goes by the rules. -/
theorem step_follows {op : Op P} {o : Option (WorkerInfo P)} (h : step alg g op = some (o, g'))
    (hk : GetKeeps g op) {l : List (WorkerInfo P)} (hl : g.Holds l) :
    ∃ l₁, g'.Holds l₁ ∧ ∀ {tr l'}, Follows g.type l₁ tr l' →
      Follows g.type l ((op, o) :: tr) l' := by
  cases op with
  | push w =>
    obtain ⟨rfl, rfl⟩ := Prod.mk.inj (Option.some.inj h)
    refine ⟨l ++ [w], ?_, .push⟩
    by_cases ht : g.type = .PQ
    · rw [push, if_pos ht]
      rw [Holds, if_pos ht] at hl ⊢
      exact (alg.push_heap_perm _).trans (hl.append_right [w])
    · rw [push, if_neg ht]
      rw [Holds, if_neg ht] at hl ⊢
      rw [hl]
  | pop =>
    obtain ⟨⟨w, g₁⟩, hp, heq⟩ := Option.map_eq_some_iff.mp h
    obtain ⟨rfl, rfl⟩ := Prod.mk.inj heq
    obtain ⟨ht, ht', hperm, hbest⟩ | ⟨ht, ht', hdq⟩ | ⟨ht, ht', hdq⟩ := pop_cases hp
    · rw [Holds, if_pos ht] at hl
      have hmem : w ∈ l := (hperm.trans hl).subset List.mem_cons_self
      obtain ⟨l₁, l₂, rfl⟩ := List.append_of_mem hmem
      refine ⟨l₁ ++ l₂, ?_, .popBest ht fun v hv => hbest v (hl.symm.subset hv)⟩
      rw [Holds, if_pos ht']
      exact ((hperm.trans hl).trans List.perm_middle).cons_inv
    · have hne : g.type ≠ .PQ := by rw [ht]; decide
      rw [Holds, if_neg hne, hdq] at hl
      subst hl
      exact ⟨g₁.dq, by rw [Holds, if_neg (by rw [ht']; decide)], .popQueue ht⟩
    · have hne : g.type ≠ .PQ := by rw [ht]; decide
      rw [Holds, if_neg hne, hdq] at hl
      subst hl
      exact ⟨g₁.dq, by rw [Holds, if_neg (by rw [ht']; decide)], .popStack ht⟩
  | find pid =>
    obtain ⟨r, hf, heq⟩ := Option.map_eq_some_iff.mp h
    obtain ⟨rfl, rfl⟩ := Prod.mk.inj heq
    unfold find at hf
    split at hf
    · cases hf
    next ht =>
      obtain rfl := Option.some.inj hf
      refine ⟨l, hl, ?_⟩
      rw [Holds, if_neg ht] at hl
      subst hl
      cases hw : g.dq.find? (·.pid = pid) with
      | none =>
        refine .notFound fun v hv => ?_
        simpa using List.find?_eq_none.mp hw v hv
      | some w =>
        obtain rfl : w.pid = pid := (find_split hw).1
        exact .found (List.mem_of_find?_eq_some hw)
  | get pid =>
    obtain ⟨ht, ⟨rfl, rfl, hno⟩ | ⟨w, rfl, hf, rfl⟩⟩ := get_cases h
    · refine ⟨l, hl, ?_⟩
      rw [Holds, if_neg ht] at hl
      exact .notGot (hl ▸ hno)
    · rw [Holds, if_neg ht] at hl
      obtain ⟨rfl, l₁, l₂, hdq, herase⟩ := find_split hf
      refine ⟨l₁ ++ l₂, ?_, ?_⟩
      · rw [Holds, if_neg ht]
        have hmem : w ∈ g.dq := List.mem_of_find?_eq_some hf
        exact (alg.make_heap_eq (hk ⟨w, hmem, rfl⟩)).trans herase
      · rw [← hl, hdq]
        exact .got

theorem run_follows {ops : List (Op P)} {tr : Trace P} (h : run alg g ops = some (tr, g'))
    (hk : KeepsOrder alg g ops) {l : List (WorkerInfo P)} (hl : g.Holds l) :
    ∃ l', g'.Holds l' ∧ Follows g.type l tr l' := by
  induction ops generalizing g tr l with
  | nil =>
    obtain ⟨rfl, rfl⟩ := Prod.mk.inj (Option.some.inj h)
    exact ⟨l, hl, .nil l⟩
  | cons op ops ih =>
    obtain ⟨o, g₁, tr', hs, hrun, rfl⟩ := run_cons h
    obtain ⟨l₁, hl₁, hstep⟩ := step_follows hs hk.1 hl
    obtain ⟨l', hl', hf⟩ := ih hrun (hk.2 _ hs) hl₁
    rw [(step_perm hs).1] at hf
    exact ⟨l', hl', hstep hf⟩

variable (alg)

/-- In every run no worker is lost or doubled; and where each removal by pid leaves workers
that make a heap in one way only, the workers leave the group by its rules. -/
theorem run_discipline (type : WorkerGroupType) {ops : List (Op P)} {tr : Trace P}
    {g : WorkerGroup P} (h : run alg (new type) ops = some (tr, g)) :
    (taken tr ++ g.workers).Perm (pushed ops) ∧
      (KeepsOrder alg (new type) ops → ∃ l, g.Holds l ∧ Follows type [] tr l) := by
  constructor
  · have hp := run_perm h
    rwa [workers_new, List.nil_append] at hp
  · intro hk
    refine run_follows h hk ?_
    unfold Holds new
    split
    · exact List.Perm.refl _
    · rfl

/-- A worker without features, by its pid and its priority. -/
def worker (pid : ℤ) (priority : ℕ) : WorkerInfo ℕ where
  pid := pid
  originator := 1
  branches := 0
  priority := priority
  pinfo := 0

theorem run_discipline_at_queue :
    ∃ tr g, run (insertionSort WorkerInfo.priority).heap (new .QUEUE)
        [.push (worker 10 0), .push (worker 11 2), .push (worker 12 1), .get 10, .pop] =
          some (tr, g) ∧
      taken tr = [worker 10 0, worker 11 2] ∧ (taken tr ++ g.workers).Perm
        [worker 10 0, worker 11 2, worker 12 1] ∧
      ∃ l, g.Holds l ∧ Follows .QUEUE [] tr l := by
  let g : WorkerGroup ℕ := { new .QUEUE with dq := [worker 12 1] }
  have hrun : run (insertionSort WorkerInfo.priority).heap (new .QUEUE)
      [.push (worker 10 0), .push (worker 11 2), .push (worker 12 1), .get 10, .pop] =
        some ([(.push (worker 10 0), none), (.push (worker 11 2), none),
          (.push (worker 12 1), none), (.get 10, some (worker 10 0)),
          (.pop, some (worker 11 2))], g) := rfl
  obtain ⟨hperm, hfollows⟩ := run_discipline _ .QUEUE hrun
  refine ⟨_, g, hrun, rfl, hperm, hfollows ?_⟩
  refine ⟨trivial, ?_⟩
  rintro _ ⟨⟩
  refine ⟨trivial, ?_⟩
  rintro _ ⟨⟩
  refine ⟨trivial, ?_⟩
  rintro _ ⟨⟩
  refine ⟨fun _ => ?_, ?_⟩
  · exact onlyHeap_pair (show (worker 12 1).priority < (worker 11 2).priority by decide)
  rintro _ ⟨⟩
  exact ⟨trivial, fun _ _ => trivial⟩

/-- With every library a queue gives out the worker that was pushed last, once another one
has been removed by its pid. -/
theorem queue_pops_last (alg : HeapAlgorithms (WorkerInfo.priority (P := ℕ))) :
    ∃ g, run alg (new .QUEUE)
        [.push (worker 10 0), .push (worker 11 1), .push (worker 12 2), .get 10, .pop] =
      some ([(.push (worker 10 0), none), (.push (worker 11 1), none),
        (.push (worker 12 2), none), (.get 10, some (worker 10 0)),
        (.pop, some (worker 12 2))], g) := by
  have hheap : alg.make_heap [worker 11 1, worker 12 2] = [worker 12 2, worker 11 1] := by
    refine onlyHeap_pair (by decide) _ ?_ (alg.make_heap_isHeap _)
    exact (alg.make_heap_perm _).trans (.swap _ _ [])
  let g : WorkerGroup ℕ := { new .QUEUE with dq := alg.make_heap [worker 11 1, worker 12 2] }
  have hpop : g.pop alg = some (worker 12 2, { g with dq := [worker 11 1] }) :=
    pop_queue rfl hheap
  have hrun : run alg g [.pop] =
      some ([(.pop, some (worker 12 2))], { g with dq := [worker 11 1] }) := by
    rw [run, step, hpop]
    rfl
  refine ⟨{ g with dq := [worker 11 1] }, ?_⟩
  change ((((run alg g [.pop]).map _).map _).map _).map _ = _
  rw [hrun]
  rfl

theorem queue_order_fails :
    ¬ ∃ alg : HeapAlgorithms (WorkerInfo.priority (P := ℕ)), ∀ ops tr g,
      run alg (new .QUEUE) ops = some (tr, g) → ∃ l, Follows .QUEUE [] tr l := by
  rintro ⟨alg, h⟩
  obtain ⟨g, hrun⟩ := queue_pops_last alg
  obtain ⟨l, hf⟩ := h _ _ _ hrun
  obtain ⟨l₁, l₂, hl, hpop⟩ := hf.of_push.of_push.of_push.of_get
  obtain ⟨l₃, hfront⟩ := hpop.of_pop_queue
  obtain _ | ⟨v, l₁⟩ := l₁
  · obtain rfl : [worker 11 1, worker 12 2] = l₂ := (List.cons.inj hl).2
    exact absurd (List.cons.inj hfront).1 (by decide)
  · obtain rfl : worker 10 0 = v := (List.cons.inj hl).1
    exact absurd (List.cons.inj hfront).1 (by decide)

end WorkerGroup

end TaseVerifier
