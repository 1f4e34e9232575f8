import TaseVerifier.ADT.ImmutableTreeIterator

/-! The search tree against the finite map it stands for. Any run of updates from the empty
tree keeps the order and the balance and does to the values what the same updates do to a map
from keys to values; the lookups and the iterators then read that map in the order of its
keys. -/

namespace TaseVerifier

namespace ImmutableTree

open Library Library.SortedKeys

variable {K V : Type*} [LinearOrder K] (key : V → K)

inductive Op (K V : Type*) where
  | insert (value : V)
  | replace (value : V)
  | remove (key : K)
  | popMin
  | popMax

/-- The value an update hands out, and the tree after it. -/
def Op.onTree (n : Node V) : Op K V → Option V × Node V
  | insert v => (none, n.insert key v)
  | replace v => (none, n.replace key v)
  | remove k => (none, n.remove key k)
  | popMin => n.popMin
  | popMax => n.popMax

/-- The same update of a map: an insertion keeps the value that is there, a replacement does
not, and a pop takes the entry at one end. -/
noncomputable def Op.onMap (m : K → Option V) : Op K V → Option V × (K → Option V)
  | insert v => (none, Function.update m (key v) (some ((m (key v)).getD v)))
  | replace v => (none, Function.update m (key v) (some v))
  | remove k => (none, Function.update m k none)
  | popMin => (least m, withoutLeast m)
  | popMax => (greatest m, withoutGreatest m)

/-- The values handed out by a run of updates, and where it ends. -/
def runTree : List (Op K V) → Node V → List (Option V) × Node V
  | [], n => ([], n)
  | op :: ops, n =>
    let (out, n) := op.onTree key n
    let (outs, n) := runTree ops n
    (out :: outs, n)

noncomputable def runMap : List (Op K V) → (K → Option V) → List (Option V) × (K → Option V)
  | [], m => ([], m)
  | op :: ops, m =>
    let (out, m) := op.onMap key m
    let (outs, m) := runMap ops m
    (out :: outs, m)

/-- The tree is a balanced search tree that holds the entries of `m` and no others. -/
structure Node.Holds (n : Node V) (m : K → Option V) : Prop where
  ordered : n.Ordered key
  balanced : n.WellBalanced
  get_eq : get key n.toList = m

variable {key}

theorem Node.holds_empty : (terminator : Node V).Holds key fun _ => none :=
  ⟨List.Pairwise.nil, trivial, rfl⟩

theorem Node.popMin_holds {n : Node V} {m : K → Option V} (hn : n.Holds key m) :
    n.popMin.2.Holds key (withoutLeast m) ∧ n.popMin.1 = least m := by
  obtain ⟨hord, hbal, rfl⟩ := hn
  have hvalues := n.popMin_values
  rw [Ordered] at hord
  rw [least_get hord]
  rcases hout : n.popMin.1 with _ | v
  · have hn : n = terminator := by simpa [hout] using (popMin_isSome (n := n)).not
    subst hn
    refine ⟨⟨hord, trivial, ?_⟩, rfl⟩
    funext k
    exact (ite_self (none : Option V)).symm
  · rw [hout, Option.toList_some, List.singleton_append] at hvalues
    rw [← hvalues] at hord ⊢
    exact ⟨⟨(List.pairwise_cons.mp hord).2, (popMin_balanced hbal).1, get_tail hord⟩, rfl⟩

theorem Node.popMax_holds {n : Node V} {m : K → Option V} (hn : n.Holds key m) :
    n.popMax.2.Holds key (withoutGreatest m) ∧ n.popMax.1 = greatest m := by
  obtain ⟨hord, hbal, rfl⟩ := hn
  have hvalues := n.popMax_values
  rw [Ordered] at hord
  rw [greatest_get hord]
  rcases hout : n.popMax.1 with _ | v
  · have hn : n = terminator := by simpa [hout] using (popMax_isSome (n := n)).not
    subst hn
    refine ⟨⟨hord, trivial, ?_⟩, rfl⟩
    funext k
    exact (ite_self (none : Option V)).symm
  · rw [hout, Option.toList_some] at hvalues
    rw [← hvalues] at hord ⊢
    exact ⟨⟨(List.pairwise_append.mp hord).1, (popMax_balanced hbal).1, get_dropLast hord⟩,
      by simp⟩

/-- One update keeps the tree in step with the map. -/
theorem Op.onTree_holds (op : Op K V) {n : Node V} {m : K → Option V} (hn : n.Holds key m) :
    (op.onTree key n).2.Holds key (op.onMap key m).2 ∧
      (op.onTree key n).1 = (op.onMap key m).1 := by
  cases op with
  | popMin => exact Node.popMin_holds hn
  | popMax => exact Node.popMax_holds hn
  | insert v =>
    obtain ⟨hord, hbal, rfl⟩ := hn
    have hkey : key ((get key n.toList (key v)).getD v) = key v := by
      cases hg : get key n.toList (key v) with
      | none => rfl
      | some u => exact ((mem_get hord).mp hg).2
    refine ⟨⟨?_, (Node.insert_balanced key v hbal).1, ?_⟩, rfl⟩
    · rw [Node.Ordered, onTree, Node.toList_insert v hord]
      exact sorted_splice hord hkey
    · rw [onTree, Node.toList_insert v hord, get_splice hord hkey]
      rfl
  | replace v =>
    obtain ⟨hord, hbal, rfl⟩ := hn
    refine ⟨⟨?_, (Node.replace_balanced key v hbal).1, ?_⟩, rfl⟩
    · rw [Node.Ordered, onTree, Node.toList_replace v hord]
      exact sorted_splice hord rfl
    · rw [onTree, Node.toList_replace v hord, get_splice hord rfl]
      rfl
  | remove k =>
    obtain ⟨hord, hbal, rfl⟩ := hn
    refine ⟨⟨?_, (Node.remove_balanced key k hbal).1, ?_⟩, rfl⟩
    · rw [Node.Ordered, onTree, Node.toList_remove k hord]
      exact sorted_without hord
    · rw [onTree, Node.toList_remove k hord, get_without hord]
      rfl

theorem runTree_holds (ops : List (Op K V)) {n : Node V} {m : K → Option V}
    (hn : n.Holds key m) :
    (runTree key ops n).2.Holds key (runMap key ops m).2 ∧
      (runTree key ops n).1 = (runMap key ops m).1 := by
  induction ops generalizing n m with
  | nil => exact ⟨hn, rfl⟩
  | cons op ops ih =>
    obtain ⟨hstep, hout⟩ := op.onTree_holds hn
    obtain ⟨hrun, houts⟩ := ih hstep
    exact ⟨hrun, congrArg₂ _ hout houts⟩

/-! ### The queries -/

open Node Iterator

/-- The iterator stands at the first entry whose key meets `p`, and goes over all of these in
the order of their keys. -/
def Starts (key : V → K) (root : Node V) (m : K → Option V) (p : K → Prop) [DecidablePred p]
    (it : Iterator V) : Prop :=
  (∀ v, it.value = some v ↔ m (key v) = some v ∧ IsLeast {k | (m k).isSome ∧ p k} (key v)) ∧
    it.walk root.size = some (root.toList.filter (p <| key ·))

theorem Iterator.At.starts {root : Node V} {m : K → Option V} (hn : root.Holds key m)
    {p : K → Prop} [DecidablePred p] {pre : List V} {it : Iterator V}
    (hit : At root pre (root.toList.filter (p <| key ·)) it) : Starts key root m p it := by
  obtain ⟨hord, -, rfl⟩ := hn
  refine ⟨fun v => by rw [hit.value, head_filter hord], hit.walk ?_⟩
  rw [size_eq_length]
  exact List.length_filter_le _ _

/-- What the queries say of a map: the entry with the greatest key not above `k`, the first
entry not below and the first above `k`, and all entries. -/
structure Node.Answers (key : V → K) (n : Node V) (m : K → Option V) : Prop where
  lookup_eq (k : K) : n.lookup key k = m k
  count_eq (k : K) : n.count key k = if (m k).isSome then 1 else 0
  min_eq : n.min = least m
  max_eq : n.max = greatest m
  lookup_previous_iff (k : K) (v : V) : n.lookup_previous key k = some v ↔
    m (key v) = some v ∧ IsGreatest {k' | (m k').isSome ∧ k' ≤ k} (key v)
  find_eq (k : K) : ∃ it, find key k n = some it ∧ it.value = m k
  lower_bound_eq (k : K) : ∃ it, lower_bound key k n = some it ∧ Starts key n m (k ≤ ·) it
  upper_bound_eq (k : K) : ∃ it, upper_bound key k n = some it ∧ Starts key n m (k < ·) it
  begin_eq : ∃ it, begin n = some it ∧ it.walk n.size = some n.toList

theorem Node.Holds.answers {n : Node V} {m : K → Option V} (hn : n.Holds key m) :
    n.Answers key m where
  lookup_eq k := by rw [Node.lookup_eq k hn.ordered, hn.get_eq]
  count_eq k := by rw [Node.count_eq, Node.lookup_eq k hn.ordered, hn.get_eq]
  min_eq := by rw [Node.min_eq, ← hn.get_eq, least_get hn.ordered]
  max_eq := by rw [Node.max_eq, ← hn.get_eq, greatest_get hn.ordered]
  lookup_previous_iff k v := by
    rw [lookup_previous_eq k hn.ordered, atMost, getLast_filter hn.ordered (· ≤ k), hn.get_eq]
  find_eq k := by
    obtain ⟨it, hit, hvalue⟩ := find_at k hn.balanced hn.ordered
    exact ⟨it, hit, by rw [hvalue, hn.get_eq]⟩
  lower_bound_eq k := by
    obtain ⟨it, hit, hat⟩ := lower_bound_at k hn.balanced hn.ordered
    exact ⟨it, hit, At.starts hn hat⟩
  upper_bound_eq k := by
    obtain ⟨it, hit, hat⟩ := upper_bound_at k hn.balanced hn.ordered
    exact ⟨it, hit, At.starts hn hat⟩
  begin_eq := by
    obtain ⟨it, hit, hat⟩ := begin_at hn.balanced
    exact ⟨it, hit, hat.walk n.size_eq_length.ge⟩

variable (key)

/-- Every tree built from the empty one is a balanced search tree, holds what the updates put
into a map, handed out what they took from it, and answers as that map does. -/
theorem updates_correct (ops : List (Op K V)) :
    let (outs, n) := runTree key ops .terminator
    let (outs', m) := runMap key ops fun _ => none
    n.Ordered key ∧ n.WellBalanced ∧ get key n.toList = m ∧ outs = outs' ∧ n.Answers key m := by
  obtain ⟨hn, houts⟩ := runTree_holds ops (holds_empty : Node.terminator.Holds key _)
  exact ⟨hn.ordered, hn.balanced, hn.get_eq, houts, hn.answers⟩

end ImmutableTree

end TaseVerifier
