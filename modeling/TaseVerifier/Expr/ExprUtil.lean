import TaseVerifier.Expr.ExprVisitor
import TaseVerifier.Expr.Kids
import TaseVerifier.Library.Worklist

/-! What an expression depends on. `findReads` walks it with a stack and a set of the update
lists it has gone through; `SymbolicObjectFinder` is a visitor with a table of visited nodes.
Both find what occurs anywhere in the expression, its update lists included. -/

namespace TaseVerifier

open Library

def Expr.isRead : Expr → Bool
  | .read _ _ => true
  | _ => false

/-- The updates from the head on, with their indices and values. -/
def UpdateList.nodes : UpdateList → List (Expr × Expr)
  | .root _ => []
  | .node index value next => (index, value) :: next.nodes

/-! ### `findReads` -/

/-- The back of the stack is the head of the list. A head of an update list is known by the
nodes from there on. -/
structure ReadsFinder where
  stack : List Expr
  visited : List Expr
  updates : List (List (Expr × Expr))
  results : List Expr

namespace ReadsFinder

/-- `if (!isa<ConstantExpr>(k) && visited.insert(k).second) stack.push_back(k)`. -/
def push (s : ReadsFinder) (k : Expr) : ReadsFinder :=
  if k.isConstant = true ∨ k ∈ s.visited then s
  else { s with stack := k :: s.stack, visited := k :: s.visited }

/-- The loop over the updates from a head on. -/
def pushUpdates (s : ReadsFinder) (nodes : List (Expr × Expr)) : ReadsFinder :=
  nodes.foldl (fun s un => (s.push un.1).push un.2) s

def visitTop (visitUpdates : Bool) (top : Expr) (s : ReadsFinder) : ReadsFinder :=
  match top with
  | .read updates index =>
    let s := { s with results := s.results ++ [Expr.read updates index] }.push index
    if visitUpdates then
      if updates.nodes ∈ s.updates then s
      else { s with updates := updates.nodes :: s.updates }.pushUpdates updates.nodes
    else s
  | top => if top.isConstant then s else top.kids.foldl push s

/-- The loop, in at most so many rounds. -/
def loop (visitUpdates : Bool) : ℕ → ReadsFinder → Option ReadsFinder
  | 0, s => if s.stack = [] then some s else none
  | n + 1, s =>
    match s.stack with
    | [] => some s
    | top :: rest => loop visitUpdates n (visitTop visitUpdates top { s with stack := rest })

end ReadsFinder

def findReads (rounds : ℕ) (e : Expr) (visitUpdates : Bool) (results : List Expr) :
    Option (List Expr) :=
  let start : ReadsFinder :=
    if e.isConstant then ⟨[], [], [], results⟩ else ⟨[e], [e], [], results⟩
  (start.loop visitUpdates rounds).map (·.results)

/-! ### `SymbolicObjectFinder` -/

/-- The table holds the visitor's own results, which are the nodes themselves. The array is
appended to `objects` when it is new in `results`. -/
structure SymbolicObjectFinder where
  visited : List Expr
  results : List KleeArray
  objects : List KleeArray

namespace SymbolicObjectFinder

def insertRoot (a : KleeArray) (f : SymbolicObjectFinder) : SymbolicObjectFinder :=
  if a.isSymbolicArray then
    if a ∈ f.results then f
    else { f with results := f.results ++ [a], objects := f.objects ++ [a] }
  else f

/-- `ExprVisitor::visit` around `visitActual`. -/
def memo (UseVisitorHash : Bool) (e : Expr) (visitActual : SymbolicObjectFinder →
    SymbolicObjectFinder) (f : SymbolicObjectFinder) : SymbolicObjectFinder :=
  if !UseVisitorHash || e.isConstant then visitActual f
  else if e ∈ f.visited then f
  else
    let f := visitActual f
    { f with visited := e :: f.visited }

section

variable (h : Bool)

mutual
/-- `visitActual`: a read's update list and then the kids. -/
def visitActual : Expr → SymbolicObjectFinder → SymbolicObjectFinder
  | .constant _, f => f
  | .notOptimized s, f => memo h s (visitActual s) f
  | .read u i, f => memo h i (visitActual i) (visitRead u f)
  | .select c t e, f =>
    memo h e (visitActual e) (memo h t (visitActual t) (memo h c (visitActual c) f))
  | .concat l r, f => memo h r (visitActual r) (memo h l (visitActual l) f)
  | .extract e _ _, f => memo h e (visitActual e) f
  | .not e, f => memo h e (visitActual e) f
  | .cast _ e _, f => memo h e (visitActual e) f
  | .binary _ l r, f => memo h r (visitActual r) (memo h l (visitActual l) f)
/-- `visitRead`: the updates from the head on, and then the root. -/
def visitRead : UpdateList → SymbolicObjectFinder → SymbolicObjectFinder
  | .root a, f => insertRoot a f
  | .node index value next, f =>
    visitRead next (memo h value (visitActual value) (memo h index (visitActual index) f))
end

def visit (e : Expr) (f : SymbolicObjectFinder) : SymbolicObjectFinder :=
  memo h e (visitActual h e) f

/-- `findSymbolicObjects` over a range. -/
def findSymbolicObjects (es : List Expr) (results : List KleeArray) : List KleeArray :=
  (es.foldl (fun f e => visit h e f) ⟨[], [], results⟩).objects

end

end SymbolicObjectFinder

/-! ### What occurs in an expression -/

mutual
/-- The expression and what it is made of, in the update lists as well. -/
def Expr.subexprs : Expr → List Expr
  | .constant c => [.constant c]
  | .notOptimized s => .notOptimized s :: s.subexprs
  | .read u i => .read u i :: (u.subexprs ++ i.subexprs)
  | .select c t f => .select c t f :: (c.subexprs ++ t.subexprs ++ f.subexprs)
  | .concat l r => .concat l r :: (l.subexprs ++ r.subexprs)
  | .extract e off w => .extract e off w :: e.subexprs
  | .not e => .not e :: e.subexprs
  | .cast k e w => .cast k e w :: e.subexprs
  | .binary k l r => .binary k l r :: (l.subexprs ++ r.subexprs)
def UpdateList.subexprs : UpdateList → List Expr
  | .root _ => []
  | .node i v next => i.subexprs ++ v.subexprs ++ next.subexprs
end

/-- Where `findReads` goes on from a node. -/
def Expr.next (visitUpdates : Bool) : Expr → List Expr
  | .read u i => i :: if visitUpdates then u.nodes.flatMap fun un => [un.1, un.2] else []
  | e => e.kids

theorem UpdateList.mem_subexprs {s : Expr} (u : UpdateList) : s ∈ u.subexprs ↔
    ∃ un ∈ u.nodes, s ∈ un.1.subexprs ∨ s ∈ un.2.subexprs := by
  refine (Expr.kids_induction (P := fun _ => True) (Q := fun u => s ∈ u.subexprs ↔
    ∃ un ∈ u.nodes, s ∈ un.1.subexprs ∨ s ∈ un.2.subexprs) ?_ ?_ ?_ ?_).2 u
  · exact fun _ _ _ _ => trivial
  · exact fun _ _ _ => trivial
  · intro x
    simp [UpdateList.subexprs, UpdateList.nodes]
  · intro i v next _ _ ih
    simp only [UpdateList.subexprs, UpdateList.nodes, List.mem_append, List.mem_cons,
      exists_eq_or_imp, ih]

namespace Expr

theorem mem_subexprs_self (e : Expr) : e ∈ e.subexprs := by
  cases e <;> simp [subexprs]

theorem mem_subexprs {e s : Expr} (h : ∀ u i, e ≠ .read u i) :
    s ∈ e.subexprs ↔ s = e ∨ ∃ k ∈ e.kids, s ∈ k.subexprs := by
  cases e with
  | read u i => exact absurd rfl (h u i)
  | _ => simp [subexprs, kids]

theorem mem_subexprs_next {e s : Expr} :
    s ∈ e.subexprs ↔ s = e ∨ ∃ k ∈ e.next true, s ∈ k.subexprs := by
  by_cases hr : ∃ u i, e = .read u i
  · obtain ⟨u, i, rfl⟩ := hr
    simp only [subexprs, next, List.mem_cons, List.mem_append, u.mem_subexprs, if_true,
      List.mem_flatMap, List.not_mem_nil, or_false]
    constructor
    · rintro (rfl | ⟨un, hun, hs | hs⟩ | hs)
      · exact .inl rfl
      · exact .inr ⟨un.1, .inr ⟨un, hun, .inl rfl⟩, hs⟩
      · exact .inr ⟨un.2, .inr ⟨un, hun, .inr rfl⟩, hs⟩
      · exact .inr ⟨i, .inl rfl, hs⟩
    · rintro (rfl | ⟨k, rfl | ⟨un, hun, rfl | rfl⟩, hs⟩)
      · exact .inl rfl
      · exact .inr (.inr hs)
      · exact .inr (.inl ⟨un, hun, .inl hs⟩)
      · exact .inr (.inl ⟨un, hun, .inr hs⟩)
  · have hne : ∀ u i, e ≠ .read u i := fun u i h => hr ⟨u, i, h⟩
    have hnext : e.next true = e.kids := by
      cases e with
      | read u i => exact absurd rfl (hne u i)
      | _ => rfl
    rw [mem_subexprs hne, hnext]

/-- The kids that are not constants. -/
def live (ks : List Expr) : List Expr := ks.filter fun k => !k.isConstant

theorem mem_live {k : Expr} {ks : List Expr} : k ∈ live ks ↔ k ∈ ks ∧ k.isConstant = false := by
  simp [live]

theorem live_append (ks ks' : List Expr) : live (ks ++ ks') = live ks ++ live ks' :=
  List.filter_append ks ks'

/-- The search goes from a node to what is not constant. -/
def liveNext (visitUpdates : Bool) (e : Expr) : List Expr := live (e.next visitUpdates)

theorem mem_subexprs_of_reaches {e x : Expr} (h : Worklist.Reaches (liveNext true) e x) :
    x ∈ e.subexprs := by
  induction h using Relation.ReflTransGen.head_induction_on with
  | refl => exact x.mem_subexprs_self
  | head hk _ ih => exact mem_subexprs_next.2 (.inr ⟨_, (mem_live.1 hk).1, ih⟩)

theorem reaches_of_mem_subexprs {x : Expr} (hx : x.isConstant = false) :
    ∀ e : Expr, x ∈ e.subexprs → Worklist.Reaches (liveNext true) e x := by
  have hstep : ∀ e : Expr,
      (∀ k ∈ e.next true, x ∈ k.subexprs → Worklist.Reaches (liveNext true) k x) →
      x ∈ e.subexprs → Worklist.Reaches (liveNext true) e x := by
    intro e ih hmem
    rcases mem_subexprs_next.1 hmem with rfl | ⟨k, hk, hxk⟩
    · exact .refl
    · have hlive : k.isConstant = false := by
        cases k with
        | constant c =>
          obtain rfl : x = .constant c := by simpa [subexprs] using hxk
          exact hx
        | _ => rfl
      exact (ih k hk hxk).head (mem_live.2 ⟨hk, hlive⟩)
  refine (kids_induction
    (Q := fun u => ∀ un ∈ u.nodes, (x ∈ un.1.subexprs → Worklist.Reaches (liveNext true) un.1 x) ∧
      (x ∈ un.2.subexprs → Worklist.Reaches (liveNext true) un.2 x)) ?_ ?_ ?_ ?_).1
  · intro u i hu hi
    refine hstep _ fun k hk => ?_
    simp only [next, if_true, List.mem_cons, List.mem_flatMap, List.not_mem_nil, or_false] at hk
    rcases hk with rfl | ⟨un, hun, rfl | rfl⟩
    · exact hi
    · exact (hu un hun).1
    · exact (hu un hun).2
  · intro e hne ih
    refine hstep e fun k hk => ih k ?_
    cases e with
    | read u i => exact absurd rfl (hne u i)
    | _ => exact hk
  · intro a un hun
    exact absurd hun List.not_mem_nil
  · intro i v next hi hv hnext un hun
    rcases List.mem_cons.1 hun with rfl | hun
    · exact ⟨hi, hv⟩
    · exact hnext un hun

end Expr

/-! ### The loop as a search -/

namespace ReadsFinder

open Expr (live liveNext)

/-- The loop runs as the search does: its results are the reads that are done, and what it
knows of update lists has been visited. -/
structure Sim (s : ReadsFinder) (w : Worklist.State Expr) : Prop where
  stack : s.stack = w.stack
  visited : s.visited = w.visited
  results : s.results = w.done.filter Expr.isRead
  known : ∀ nodes ∈ s.updates, ∀ k ∈ live (nodes.flatMap fun un => [un.1, un.2]), k ∈ s.visited

variable {s : ReadsFinder} {w : Worklist.State Expr}

theorem pushUpdates_eq (s : ReadsFinder) (nodes : List (Expr × Expr)) :
    s.pushUpdates nodes = (nodes.flatMap fun un => [un.1, un.2]).foldl push s := by
  induction nodes generalizing s with
  | nil => rfl
  | cons un nodes ih => exact ih _

theorem Sim.push (h : Sim s w) (k : Expr) : Sim (s.push k) (Worklist.pushAll w (live [k])) := by
  by_cases hk : k.isConstant = true
  · have hlive : live [k] = [] := by simp [live, hk]
    rw [hlive, ReadsFinder.push, if_pos (.inl hk)]
    exact h
  · have hlive : live [k] = [k] := by simp [live, hk]
    rw [hlive]
    change Sim _ (Worklist.push w k)
    by_cases hv : k ∈ s.visited
    · rw [ReadsFinder.push, if_pos (.inr hv), Worklist.push_of_mem (h.visited ▸ hv)]
      exact h
    · rw [ReadsFinder.push, if_neg (by tauto), Worklist.push_of_not_mem (h.visited ▸ hv)]
      refine ⟨by simp [h.stack], by simp [h.visited], h.results, fun nodes hn k' hk' => ?_⟩
      exact List.mem_cons_of_mem k (h.known nodes hn k' hk')

theorem pushAll_live_append (ks ks' : List Expr) :
    Worklist.pushAll w (live (ks ++ ks')) =
      Worklist.pushAll (Worklist.pushAll w (live ks)) (live ks') := by
  unfold Worklist.pushAll
  rw [Expr.live_append, List.foldl_append]

theorem Sim.pushes (h : Sim s w) (ks : List Expr) :
    Sim (ks.foldl ReadsFinder.push s) (Worklist.pushAll w (live ks)) := by
  induction ks generalizing s w with
  | nil => exact h
  | cons k ks ih =>
    rw [List.foldl_cons, ← List.singleton_append, pushAll_live_append]
    exact ih (h.push k)

theorem foldl_push_updates (ks : List Expr) (s : ReadsFinder) (us : List (List (Expr × Expr))) :
    ks.foldl ReadsFinder.push { s with updates := us } =
      { ks.foldl ReadsFinder.push s with updates := us } := by
  induction ks generalizing s with
  | nil => rfl
  | cons k ks ih =>
    have hpush : ReadsFinder.push { s with updates := us } k = { s.push k with updates := us } := by
      unfold ReadsFinder.push
      split_ifs <;> rfl
    rw [List.foldl_cons, hpush, ih, List.foldl_cons]

/-- An update list that is not gone through again would have pushed nothing. -/
theorem Sim.pushUpdates (h : Sim s w) (nodes : List (Expr × Expr)) :
    Sim (if nodes ∈ s.updates then s
        else { s with updates := nodes :: s.updates }.pushUpdates nodes)
      (Worklist.pushAll w (live (nodes.flatMap fun un => [un.1, un.2]))) := by
  split_ifs with hn
  · rw [Worklist.pushAll_of_subset fun k hk => h.visited ▸ h.known nodes hn k hk]
    exact h
  · have hsim := h.pushes (nodes.flatMap fun un => [un.1, un.2])
    rw [pushUpdates_eq, foldl_push_updates]
    refine ⟨hsim.stack, hsim.visited, hsim.results, fun ns hns k hk => ?_⟩
    change k ∈ (List.foldl ReadsFinder.push s _).visited
    rcases List.mem_cons.1 hns with rfl | hns
    · rw [hsim.visited]
      exact Worklist.mem_visited_pushAll.2 (.inl hk)
    · rw [hsim.visited]
      exact Worklist.mem_visited_pushAll.2 (.inr (h.visited ▸ h.known ns hns k hk))

/-- One round of the loop is one round of the search. -/
theorem Sim.visitTop (h : Sim s w) {top : Expr} {rest : List Expr} (visitUpdates : Bool) :
    Sim (ReadsFinder.visitTop visitUpdates top { s with stack := rest })
      (Worklist.step (liveNext visitUpdates) top { w with stack := rest }) := by
  by_cases hr : ∃ u i, top = .read u i
  · obtain ⟨u, i, rfl⟩ := hr
    have hstart : Sim { s with stack := rest, results := s.results ++ [Expr.read u i] }
        { w with stack := rest, done := w.done ++ [Expr.read u i] } := by
      refine ⟨rfl, h.visited, ?_, h.known⟩
      rw [List.filter_append, ← h.results]
      rfl
    have hindex := hstart.push i
    cases visitUpdates with
    | false => exact hindex
    | true =>
      have hsplit := pushAll_live_append (w := { w with
        stack := rest, done := w.done ++ [Expr.read u i] }) [i]
        (u.nodes.flatMap fun un => [un.1, un.2])
      rw [Worklist.step, liveNext]
      change Sim _ (Worklist.pushAll _ (live ([i] ++ u.nodes.flatMap fun un => [un.1, un.2])))
      rw [hsplit]
      exact hindex.pushUpdates u.nodes
  · have hread : top.isRead = false := by
      cases top with
      | read u i => exact absurd ⟨u, i, rfl⟩ hr
      | _ => rfl
    have hstart : Sim { s with stack := rest } { w with stack := rest, done := w.done ++ [top] } := by
      refine ⟨rfl, h.visited, ?_, h.known⟩
      rw [List.filter_append, ← h.results]
      simp [hread]
    cases top with
    | read u i => exact absurd ⟨u, i, rfl⟩ hr
    | constant c => exact hstart
    | _ => exact hstart.pushes _

theorem Sim.loop {visitUpdates : Bool} {n : ℕ} (h : Sim s w) {w' : Worklist.State Expr}
    (hrun : Worklist.run (liveNext visitUpdates) n w = some w') :
    ∃ s', s.loop visitUpdates n = some s' ∧ Sim s' w' := by
  induction n generalizing s w with
  | zero =>
    rw [Worklist.run] at hrun
    split_ifs at hrun with hs
    obtain rfl := Option.some.inj hrun
    exact ⟨s, if_pos (h.stack.trans hs), h⟩
  | succ n ih =>
    cases hs : w.stack with
    | nil =>
      rw [Worklist.run, hs] at hrun
      obtain rfl := Option.some.inj hrun
      exact ⟨s, by rw [ReadsFinder.loop, h.stack, hs], h⟩
    | cons top rest =>
      rw [Worklist.run, hs] at hrun
      obtain ⟨s', hloop, hsim⟩ := ih (h.visitTop visitUpdates) hrun
      exact ⟨s', by rw [ReadsFinder.loop, h.stack, hs]; exact hloop, hsim⟩

end ReadsFinder

open Expr (liveNext) in
/-- `findReads` with the updates: every read that occurs, once. -/
theorem findReads_spec {e : Expr} {rounds : ℕ} (hrounds : e.subexprs.length ≤ rounds) :
    ∃ reads, findReads rounds e true [] = some reads ∧ reads.Nodup ∧
      ∀ r, r ∈ reads ↔ r.isRead = true ∧ r ∈ e.subexprs := by
  by_cases hc : e.isConstant = true
  · refine ⟨[], ?_, List.nodup_nil, fun r => ?_⟩
    · unfold findReads
      rw [if_pos hc]
      cases rounds <;> rfl
    · cases e with
      | constant c =>
        simp only [List.not_mem_nil, Expr.subexprs, List.mem_singleton, false_iff, not_and]
        rintro hr rfl
        exact Bool.false_ne_true hr
      | _ => exact absurd hc Bool.false_ne_true
  · have hocc : ∀ r ∈ [e], ∀ x, Worklist.Reaches (liveNext true) r x → x ∈ e.subexprs := by
      rintro r hr x hx
      obtain rfl := List.mem_singleton.1 hr
      exact Expr.mem_subexprs_of_reaches hx
    have hstart : ∀ r ∈ [e], r ∈ (Worklist.start [e]).visited := fun r hr => hr
    have hlen : e.subexprs.length ≤ rounds + (Worklist.start [e]).done.length := hrounds
    obtain ⟨w, hrun, hnodup, hmem⟩ := Worklist.run_spec hocc Worklist.start_inv hstart hlen
    have hsim : ReadsFinder.Sim ⟨[e], [e], [], []⟩ (Worklist.start [e]) :=
      ⟨rfl, rfl, rfl, fun ns hns => absurd hns List.not_mem_nil⟩
    obtain ⟨s, hloop, hs⟩ := hsim.loop hrun
    refine ⟨s.results, ?_, ?_, fun r => ?_⟩
    · unfold findReads
      simp only [if_neg hc, hloop, Option.map_some]
    · rw [hs.results]
      exact hnodup.filter _
    · rw [hs.results, List.mem_filter, hmem]
      simp only [List.mem_singleton, exists_eq_left]
      constructor
      · rintro ⟨hreach, hr⟩
        exact ⟨hr, Expr.mem_subexprs_of_reaches hreach⟩
      · rintro ⟨hr, hocc⟩
        refine ⟨Expr.reaches_of_mem_subexprs ?_ e hocc, hr⟩
        cases r with
        | constant c => exact absurd hr Bool.false_ne_true
        | _ => rfl

/-! ### The visitor and its table -/

/-- A visitor that does nothing at any node returns the expression, so that nothing is rebuilt
and the table maps each node to itself. -/
theorem ExprVisitor.visit_default (e : Expr) : ({} : ExprVisitor).visit e = .ok e := by
  have hwithin : ∀ n (e : Expr), e.weight < n → ({} : ExprVisitor).visitWithin n e = .ok e := by
    intro n
    induction n with
    | zero => exact fun e h => absurd h (Nat.not_lt_zero _)
    | succ n ih =>
      intro e h
      have hkids : e.kids.mapM (({} : ExprVisitor).visitWithin n) = .ok e.kids :=
        mapM_eq_ok.2 (List.forall₂_same.2 fun k hk => ih k (by
          have := Expr.weight_kids hk
          omega))
      rw [visitWithin, visitActual]
      split_ifs with hc
      · rfl
      · change (e.kids.mapM (({} : ExprVisitor).visitWithin n) >>= fun kids => _) = _
        rw [hkids]
        change (({} : ExprVisitor).rebuilt _ e e.kids >>= fun e' => _) = _
        rw [rebuilt, if_pos rfl]
        exact congrArg Except.ok (ite_self e)
  exact hwithin (e.weight + 1) e (Nat.lt_succ_self _)

theorem foldl_insertObject_of_subset {as objects : List KleeArray} (h : ∀ a ∈ as, a ∈ objects) :
    as.foldl insertObject objects = objects := by
  induction as with
  | nil => rfl
  | cons a as ih =>
    rw [List.foldl_cons, insertObject, if_pos (h a List.mem_cons_self)]
    exact ih fun b hb => h b (List.mem_cons_of_mem a hb)

theorem nodup_foldl_insertObject (as : List KleeArray) {objects : List KleeArray}
    (h : objects.Nodup) : (as.foldl insertObject objects).Nodup := by
  induction as generalizing objects with
  | nil => exact h
  | cons a as ih =>
    refine ih ?_
    unfold insertObject
    split_ifs with ha
    · exact h
    · exact List.nodup_append.2 ⟨h, by simp, fun b hb c hc hbc =>
        ha (List.mem_singleton.1 hc ▸ hbc ▸ hb)⟩

namespace SymbolicObjectFinder

/-- The arrays of the nodes in the table are among the results, which come after what the
vector held before. -/
structure Inv (before : List KleeArray) (f : SymbolicObjectFinder) : Prop where
  covered : ∀ x ∈ f.visited, ∀ a ∈ x.symbolicRoots, a ∈ f.results
  objects : f.objects = before ++ f.results

/-- The results grow by these arrays, in this order. -/
def Collects (before roots : List KleeArray)
    (g : SymbolicObjectFinder → SymbolicObjectFinder) : Prop :=
  ∀ f, Inv before f → Inv before (g f) ∧ (g f).results = roots.foldl insertObject f.results

variable {before roots roots' : List KleeArray}
  {g g' : SymbolicObjectFinder → SymbolicObjectFinder}

theorem Collects.comp (hg : Collects before roots g) (hg' : Collects before roots' g') :
    Collects before (roots ++ roots') fun f => g' (g f) := by
  intro f hf
  obtain ⟨hinv, hres⟩ := hg f hf
  obtain ⟨hinv', hres'⟩ := hg' (g f) hinv
  exact ⟨hinv', by rw [hres', hres, List.foldl_append]⟩

/-- A node in the table would add nothing. -/
theorem Collects.memo {e : Expr} (hg : Collects before e.symbolicRoots g) (h : Bool) :
    Collects before e.symbolicRoots (memo h e g) := by
  intro f hf
  obtain ⟨hinv, hres⟩ := hg f hf
  unfold SymbolicObjectFinder.memo
  split_ifs with hhash hv
  · exact ⟨hinv, hres⟩
  · exact ⟨hf, (foldl_insertObject_of_subset (hf.covered e hv)).symm⟩
  · refine ⟨⟨fun x hx a ha => ?_, hinv.objects⟩, hres⟩
    rcases List.mem_cons.1 hx with rfl | hx
    · change a ∈ (g f).results
      rw [hres]
      exact (mem_foldl_insertObject _ _ a).2 (.inr ha)
    · exact hinv.covered x hx a ha

theorem insertRoot_collects (a : KleeArray) :
    Collects before (UpdateList.root a).symbolicRoots (insertRoot a) := by
  intro f hf
  unfold insertRoot UpdateList.symbolicRoots
  by_cases hs : a.isSymbolicArray = true
  · simp only [hs, if_true, List.foldl_cons, List.foldl_nil, insertObject]
    split_ifs with ha
    · exact ⟨hf, rfl⟩
    · refine ⟨⟨fun x hx b hb => List.mem_append_left _ (hf.covered x hx b hb), ?_⟩, rfl⟩
      change f.objects ++ [a] = before ++ (f.results ++ [a])
      rw [hf.objects, List.append_assoc]
  · simp only [hs, if_false, Bool.false_eq_true, List.foldl_nil]
    exact ⟨hf, trivial⟩

mutual
theorem visitActual_collects (h : Bool) :
    ∀ e : Expr, Collects before e.symbolicRoots (visitActual h e)
  | .constant _ => fun _ hf => ⟨hf, rfl⟩
  | .notOptimized s => (visitActual_collects h s).memo h
  | .read u i => (visitRead_collects h u).comp ((visitActual_collects h i).memo h)
  | .select c t e => (((visitActual_collects h c).memo h).comp
      ((visitActual_collects h t).memo h)).comp ((visitActual_collects h e).memo h)
  | .concat l r => ((visitActual_collects h l).memo h).comp ((visitActual_collects h r).memo h)
  | .extract e _ _ => (visitActual_collects h e).memo h
  | .not e => (visitActual_collects h e).memo h
  | .cast _ e _ => (visitActual_collects h e).memo h
  | .binary _ l r => ((visitActual_collects h l).memo h).comp ((visitActual_collects h r).memo h)
theorem visitRead_collects (h : Bool) :
    ∀ u : UpdateList, Collects before u.symbolicRoots (visitRead h u)
  | .root a => insertRoot_collects a
  | .node i v next => (((visitActual_collects h i).memo h).comp
      ((visitActual_collects h v).memo h)).comp (visitRead_collects h next)
end

theorem visits_collect (h : Bool) (es : List Expr) :
    Collects before (es.flatMap Expr.symbolicRoots) fun f => es.foldl (fun f e => visit h e f) f := by
  induction es with
  | nil => exact fun f hf => ⟨hf, rfl⟩
  | cons e es ih => exact ((visitActual_collects h e).memo h).comp ih

/-- The table changes nothing: the arrays are those that the visit without it meets. -/
theorem findSymbolicObjects_eq (h : Bool) (es : List Expr) (results : List KleeArray) :
    findSymbolicObjects h es results =
      results ++ (es.flatMap Expr.symbolicRoots).foldl insertObject [] := by
  have hstart : Inv results ⟨[], [], results⟩ :=
    ⟨fun x hx => absurd hx List.not_mem_nil, (List.append_nil results).symm⟩
  obtain ⟨hinv, hres⟩ := visits_collect h es _ hstart
  rw [findSymbolicObjects, hinv.objects, hres]

end SymbolicObjectFinder

/-- The symbolic roots are the symbolic arrays that some read goes down to. -/
theorem Expr.mem_symbolicRoots_iff {a : KleeArray} : ∀ e : Expr, a ∈ e.symbolicRoots ↔
    a.isSymbolicArray = true ∧ ∃ u i, Expr.read u i ∈ e.subexprs ∧ u.array = a := by
  refine (kids_induction
    (Q := fun u => a ∈ u.symbolicRoots ↔ a.isSymbolicArray = true ∧
      (u.array = a ∨ ∃ v j, Expr.read v j ∈ u.subexprs ∧ v.array = a)) ?_ ?_ ?_ ?_).1
  · intro u i hu hi
    simp only [Expr.symbolicRoots, List.mem_append, hu, hi, Expr.subexprs, List.mem_cons,
      Expr.read.injEq]
    constructor
    · rintro (⟨ha, hroot | ⟨v, j, hmem, hroot⟩⟩ | ⟨ha, v, j, hmem, hroot⟩)
      · exact ⟨ha, u, i, .inl ⟨rfl, rfl⟩, hroot⟩
      · exact ⟨ha, v, j, .inr (.inl hmem), hroot⟩
      · exact ⟨ha, v, j, .inr (.inr hmem), hroot⟩
    · rintro ⟨ha, v, j, ⟨rfl, rfl⟩ | hmem | hmem, hroot⟩
      · exact .inl ⟨ha, .inl hroot⟩
      · exact .inl ⟨ha, .inr ⟨v, j, hmem, hroot⟩⟩
      · exact .inr ⟨ha, v, j, hmem, hroot⟩
  · intro e hne ih
    have hroots : a ∈ e.symbolicRoots ↔ ∃ k ∈ e.kids, a ∈ k.symbolicRoots := by
      cases e with
      | read u i => exact absurd rfl (hne u i)
      | _ => simp [Expr.symbolicRoots, Expr.kids]
    rw [hroots]
    constructor
    · rintro ⟨k, hk, hak⟩
      obtain ⟨ha, u, i, hmem, hroot⟩ := (ih k hk).1 hak
      exact ⟨ha, u, i, (Expr.mem_subexprs hne).2 (.inr ⟨k, hk, hmem⟩), hroot⟩
    · rintro ⟨ha, u, i, hmem, hroot⟩
      rcases (Expr.mem_subexprs hne).1 hmem with heq | ⟨k, hk, hmem⟩
      · exact absurd heq.symm (hne u i)
      · exact ⟨k, hk, (ih k hk).2 ⟨ha, u, i, hmem, hroot⟩⟩
  · intro b
    simp only [UpdateList.symbolicRoots, UpdateList.array, UpdateList.subexprs, List.not_mem_nil,
      false_and, exists_false, or_false]
    by_cases hb : b.isSymbolicArray = true
    · rw [if_pos hb, List.mem_singleton]
      exact ⟨fun h => ⟨h ▸ hb, h.symm⟩, fun h => h.2.symm⟩
    · rw [if_neg hb]
      exact ⟨fun h => absurd h List.not_mem_nil, fun h => absurd (h.2 ▸ h.1) hb⟩
  · intro i v next hi hv hnext
    simp only [UpdateList.symbolicRoots, UpdateList.array, UpdateList.subexprs, List.mem_append,
      hi, hv, hnext]
    constructor
    · rintro ((⟨ha, w, j, hmem, hroot⟩ | ⟨ha, w, j, hmem, hroot⟩) | ⟨ha, hroot | ⟨w, j, hmem, hroot⟩⟩)
      · exact ⟨ha, .inr ⟨w, j, .inl (.inl hmem), hroot⟩⟩
      · exact ⟨ha, .inr ⟨w, j, .inl (.inr hmem), hroot⟩⟩
      · exact ⟨ha, .inl hroot⟩
      · exact ⟨ha, .inr ⟨w, j, .inr hmem, hroot⟩⟩
    · rintro ⟨ha, hroot | ⟨w, j, (hmem | hmem) | hmem, hroot⟩⟩
      · exact .inr ⟨ha, .inl hroot⟩
      · exact .inl (.inl ⟨ha, w, j, hmem, hroot⟩)
      · exact .inl (.inr ⟨ha, w, j, hmem, hroot⟩)
      · exact .inr ⟨ha, .inr ⟨w, j, hmem, hroot⟩⟩

/-- Both collections are complete and without repetition. -/
theorem dependencies_exact (useVisitorHash : Bool) {e : Expr} {rounds : ℕ}
    (hrounds : e.subexprs.length ≤ rounds) :
    (SymbolicObjectFinder.findSymbolicObjects useVisitorHash [e] []).Nodup ∧
      (∀ a, a ∈ SymbolicObjectFinder.findSymbolicObjects useVisitorHash [e] [] ↔
        a.isSymbolicArray = true ∧ ∃ u i, Expr.read u i ∈ e.subexprs ∧ u.array = a) ∧
      ∃ reads, findReads rounds e true [] = some reads ∧ reads.Nodup ∧
        ∀ r, r ∈ reads ↔ r.isRead = true ∧ r ∈ e.subexprs := by
  rw [SymbolicObjectFinder.findSymbolicObjects_eq, List.nil_append]
  refine ⟨nodup_foldl_insertObject _ List.nodup_nil, fun a => ?_, findReads_spec hrounds⟩
  rw [mem_foldl_insertObject, List.flatMap_singleton, ← e.mem_symbolicRoots_iff]
  simp

/-- A byte of `a` that was overwritten with a byte of `b`. -/
def overwritten : Expr :=
  .read (.node (.alloc 0 32) (.read (.root ⟨"b", 2, 1, []⟩) (.alloc 1 32)) (.root ⟨"a", 1, 0, []⟩))
    (.alloc 0 32)

theorem dependencies_exact_overwritten :
    (SymbolicObjectFinder.findSymbolicObjects true [overwritten] []).Nodup ∧
      (∀ a, a ∈ SymbolicObjectFinder.findSymbolicObjects true [overwritten] [] ↔
        a.isSymbolicArray = true ∧
          ∃ u i, Expr.read u i ∈ overwritten.subexprs ∧ u.array = a) ∧
      ∃ reads, findReads 5 overwritten true [] = some reads ∧ reads.Nodup ∧
        ∀ r, r ∈ reads ↔ r.isRead = true ∧ r ∈ overwritten.subexprs :=
  dependencies_exact true (by decide)

end TaseVerifier
