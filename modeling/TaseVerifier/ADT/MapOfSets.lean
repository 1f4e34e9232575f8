import Mathlib.Data.List.Basic
import Mathlib.Tactic.Common

/-! A map whose keys are sets, kept as a trie: the edges from the root to a node spell
the elements of a set in their order. Besides the exact lookup it finds a value that is
stored for some subset, or some superset, of a given set. A set is the list of its
elements in the order `lt`. -/

namespace TaseVerifier

namespace MapOfSets

mutual
/-- A node and, if a set ends there, its value. -/
inductive Node (K V : Type) where
  | node (value : Option V) (children : Children K V)
/-- `std::map<K, Node>`, in the order of the keys. -/
inductive Children (K V : Type) where
  | nil
  | cons (key : K) (child : Node K V) (rest : Children K V)
end

section Model

variable {K V : Type} [DecidableEq K] (lt : K → K → Bool)

def empty : Node K V := .node none .nil

/-- A new node with the rest of the path below it. -/
def path : List K → V → Node K V
  | [], v => .node (some v) .nil
  | k :: set, v => .node none (.cons k (path set v) .nil)

mutual
/-- The path is extended where it ends, and the value of the last node is replaced. -/
def Node.insert : List K → V → Node K V → Node K V
  | [], v, .node _ children => .node (some v) children
  | k :: set, v, .node value children => .node value (Children.insert k set v children)
def Children.insert (k : K) (set : List K) (v : V) : Children K V → Children K V
  | .nil => .cons k (path set v) .nil
  | .cons k' child rest =>
    if lt k k' then .cons k (path set v) (.cons k' child rest)
    else if k = k' then .cons k' (Node.insert set v child) rest
    else .cons k' child (Children.insert k set v rest)
end

mutual
def Node.lookup : List K → Node K V → Option V
  | [], .node value _ => value
  | k :: set, .node _ children => Children.lookup k set children
def Children.lookup (k : K) (set : List K) : Children K V → Option V
  | .nil => none
  | .cons k' child rest => if k = k' then Node.lookup set child else Children.lookup k set rest
end

variable {ε : Type}

/-- The value of a node, if it has one that meets `p`. -/
def check (p : V → Except ε Bool) : Option V → Except ε (Option V)
  | none => pure none
  | some v => (p v).map fun found => if found then some v else none

/-- The first search that finds something. -/
def firstOf (x y : Except ε (Option V)) : Except ε (Option V) := do
  match ← x with
  | some v => pure (some v)
  | none => y

mutual
/-- A value that meets `p` and is stored for a subset of the given elements. -/
def Node.findSubset (p : V → Except ε Bool) : List K → Node K V → Except ε (Option V)
  | set, .node value children => firstOf (check p value) (Children.findSubset p set children)
/-- The loop over the elements and the children in step: smaller elements are skipped,
then smaller children. -/
def Children.findSubset (p : V → Except ε Bool) : List K → Children K V → Except ε (Option V)
  | _, .nil => pure none
  | set, .cons k child rest =>
    match set.dropWhile (lt · k) with
    | [] => pure none
    | x :: set =>
      if x = k then
        firstOf (Node.findSubset p set child)
          (if set = [] then pure none else Children.findSubset p set rest)
      else Children.findSubset p (x :: set) rest
end

mutual
/-- A value that meets `p` and is stored for a superset of the given elements. -/
def Node.findSuperset (p : V → Except ε Bool) : List K → Node K V → Except ε (Option V)
  | [], .node value children => firstOf (check p value) (Children.findSuperset p [] children)
  | x :: set, .node _ children =>
    firstOf (Children.findSuperset p (x :: set) children)
      (Children.findSupersetAt p x set children)
/-- The first result among the children. -/
def Children.findSuperset (p : V → Except ε Bool) : List K → Children K V → Except ε (Option V)
  | _, .nil => pure none
  | set, .cons _ child rest =>
    firstOf (Node.findSuperset p set child) (Children.findSuperset p set rest)
/-- The child at the lower bound of `x`, if its key is `x`. -/
def Children.findSupersetAt (p : V → Except ε Bool) (x : K) (set : List K) :
    Children K V → Except ε (Option V)
  | .nil => pure none
  | .cons k child rest =>
    if lt k x then Children.findSupersetAt p x set rest
    else if x = k then Node.findSuperset p set child
    else pure none
end

end Model

/-! ### What is stored -/

mutual
/-- The value `v` is stored for the path. -/
def Node.Stores {K V : Type} : Node K V → List K → V → Prop
  | .node value _, [], v => value = some v
  | .node _ children, k :: set, v => Children.Stores children k set v
def Children.Stores {K V : Type} : Children K V → K → List K → V → Prop
  | .nil, _, _, _ => False
  | .cons k' child rest, k, set, v =>
    (k = k' ∧ Node.Stores child set v) ∨ Children.Stores rest k set v
end

section Stores

variable {K V : Type}

theorem not_stores_empty (set : List K) (v : V) : ¬ (empty : Node K V).Stores set v := by
  cases set <;> simp [empty, Node.Stores, Children.Stores]

theorem stores_path {set set' : List K} {v w : V} (h : (path set v).Stores set' w) :
    set' = set ∧ w = v := by
  induction set generalizing set' with
  | nil =>
    cases set' with
    | nil => exact ⟨rfl, (Option.some.inj h).symm⟩
    | cons k set' => exact h.elim
  | cons k set ih =>
    cases set' with
    | nil => cases h
    | cons k' set' =>
      obtain ⟨rfl, h⟩ | h := h
      · obtain ⟨rfl, rfl⟩ := ih h
        exact ⟨rfl, rfl⟩
      · exact h.elim

variable [DecidableEq K] {lt : K → K → Bool}

mutual
/-- After an insertion there is the new value, and what was there before. -/
theorem Node.stores_insert {v w : V} : ∀ (set : List K) (n : Node K V) {set' : List K},
    (Node.insert lt set v n).Stores set' w → set' = set ∧ w = v ∨ n.Stores set' w
  | [], .node _ _, [], h => .inl ⟨rfl, (Option.some.inj h).symm⟩
  | [], .node _ _, _ :: _, h => .inr h
  | _ :: _, .node _ _, [], h => .inr h
  | k :: set, .node _ children, k' :: set', h => by
    rcases Children.stores_insert k set children h with ⟨rfl, rfl, rfl⟩ | h
    · exact .inl ⟨rfl, rfl⟩
    · exact .inr h
theorem Children.stores_insert {v w : V} (k : K) (set : List K) :
    ∀ (children : Children K V) {k' : K} {set' : List K},
      (Children.insert lt k set v children).Stores k' set' w →
        k' = k ∧ set' = set ∧ w = v ∨ children.Stores k' set' w
  | .nil, k', set', h => by
    obtain ⟨rfl, h⟩ | h := h
    · exact .inl ⟨rfl, stores_path h⟩
    · exact h.elim
  | .cons k₁ child rest, k', set', h => by
    unfold Children.insert at h
    split_ifs at h with h₁ h₂
    · obtain ⟨rfl, h⟩ | h := h
      · exact .inl ⟨rfl, stores_path h⟩
      · exact .inr h
    · subst h₂
      obtain ⟨rfl, h⟩ | h := h
      · rcases Node.stores_insert set child h with h | h
        · exact .inl ⟨rfl, h⟩
        · exact .inr (.inl ⟨rfl, h⟩)
      · exact .inr (.inr h)
    · obtain ⟨rfl, h⟩ | h := h
      · exact .inr (.inl ⟨rfl, h⟩)
      · rcases Children.stores_insert k set rest h with h | h
        · exact .inl h
        · exact .inr (.inr h)
end

mutual
theorem Node.stores_of_lookup {v : V} : ∀ (set : List K) (n : Node K V),
    n.lookup set = some v → n.Stores set v
  | [], .node _ _, h => h
  | k :: set, .node _ children, h => Children.stores_of_lookup k set children h
theorem Children.stores_of_lookup {v : V} (k : K) (set : List K) :
    ∀ children : Children K V, children.lookup k set = some v → children.Stores k set v
  | .nil, h => by cases h
  | .cons k' child rest, h => by
    unfold Children.lookup at h
    split_ifs at h with hk
    · exact .inl ⟨hk, Node.stores_of_lookup set child h⟩
    · exact .inr (Children.stores_of_lookup k set rest h)
end

variable {ε : Type} {p : V → Except ε Bool} {E : ε → Prop}

/-- A search stops only by the errors in `E`, and what it finds meets `Q`. -/
def Finds (E : ε → Prop) (x : Except ε (Option V)) (Q : V → Prop) : Prop :=
  match x with
  | .ok (some v) => Q v
  | .ok none => True
  | .error err => E err

theorem Finds.mono {x : Except ε (Option V)} {Q R : V → Prop} (h : Finds E x Q)
    (hQR : ∀ v, Q v → R v) : Finds E x R := by
  unfold Finds at h ⊢
  split <;> simp_all

theorem Finds.firstOf {x y : Except ε (Option V)} {Q : V → Prop} (hx : Finds E x Q)
    (hy : Finds E y Q) : Finds E (firstOf x y) Q := by
  match x with
  | .ok (some v) => exact hx
  | .ok none => exact hy
  | .error err => exact hx

/-- The predicate stops only by the errors in `E`. -/
def StopsBy (E : ε → Prop) (p : V → Except ε Bool) : Prop := ∀ v err, p v = .error err → E err

theorem finds_check (hp : StopsBy E p) (value : Option V) :
    Finds E (check p value) fun v => value = some v ∧ p v = .ok true := by
  cases value with
  | none => exact trivial
  | some v =>
    rw [check]
    cases hv : p v with
    | error err => exact hp v err hv
    | ok found =>
      cases found with
      | true => exact ⟨rfl, hv⟩
      | false => exact trivial

mutual
/-- The subset search returns a value that is stored for a subset. -/
theorem Node.finds_subset (hp : StopsBy E p) : ∀ (set : List K) (n : Node K V),
    Finds E (n.findSubset lt p set) fun v => ∃ set', n.Stores set' v ∧ set' ⊆ set ∧ p v = .ok true
  | set, .node value children => by
    refine .firstOf ((finds_check hp value).mono fun v hv => ?_)
      ((Children.finds_subset hp set children).mono fun v hv => ?_)
    · exact ⟨[], hv.1, List.nil_subset _, hv.2⟩
    · obtain ⟨k, set', hs, hsub⟩ := hv
      exact ⟨k :: set', hs, hsub⟩
theorem Children.finds_subset (hp : StopsBy E p) : ∀ (set : List K) (children : Children K V),
    Finds E (children.findSubset lt p set)
      fun v => ∃ k set', children.Stores k set' v ∧ k :: set' ⊆ set ∧ p v = .ok true
  | _, .nil => trivial
  | set, .cons k child rest => by
    have hdrop := set.dropWhile_subset (lt · k)
    have hrest : ∀ set' ⊆ set, Finds E (rest.findSubset lt p set') fun v => ∃ k' set',
        (Children.cons k child rest).Stores k' set' v ∧ k' :: set' ⊆ set ∧ p v = .ok true := by
      intro set' hset'
      refine (Children.finds_subset hp set' rest).mono fun v hv => ?_
      obtain ⟨k', set'', hs, hsub, hpv⟩ := hv
      exact ⟨k', set'', .inr hs, List.Subset.trans hsub hset', hpv⟩
    unfold Children.findSubset
    split
    · exact trivial
    next x tail htail =>
      rw [htail] at hdrop
      have htail : tail ⊆ set := List.Subset.trans (List.subset_cons_self x tail) hdrop
      split_ifs with hx hnil
      · refine .firstOf ((Node.finds_subset hp tail child).mono fun v hv => ?_) trivial
        obtain ⟨set', hs, hsub, hpv⟩ := hv
        exact ⟨k, set', .inl ⟨rfl, hs⟩, List.Subset.trans (hx ▸ List.cons_subset_cons x hsub) (hx ▸ hdrop), hpv⟩
      · refine .firstOf ((Node.finds_subset hp tail child).mono fun v hv => ?_) (hrest tail htail)
        obtain ⟨set', hs, hsub, hpv⟩ := hv
        exact ⟨k, set', .inl ⟨rfl, hs⟩, List.Subset.trans (hx ▸ List.cons_subset_cons x hsub) (hx ▸ hdrop), hpv⟩
      · exact hrest _ hdrop
end

mutual
/-- The superset search returns a value that is stored for a superset. -/
theorem Node.finds_superset (hp : StopsBy E p) : ∀ (set : List K) (n : Node K V),
    Finds E (n.findSuperset lt p set) fun v => ∃ set', n.Stores set' v ∧ set ⊆ set' ∧ p v = .ok true
  | [], .node value children => by
    refine .firstOf ((finds_check hp value).mono fun v hv => ?_)
      ((Children.finds_superset hp [] children).mono fun v hv => ?_)
    · exact ⟨[], hv.1, List.nil_subset _, hv.2⟩
    · obtain ⟨k, set', hs, -, hpv⟩ := hv
      exact ⟨k :: set', hs, List.nil_subset _, hpv⟩
  | x :: set, .node value children => by
    refine .firstOf ((Children.finds_superset hp (x :: set) children).mono fun v hv => ?_)
      ((Children.finds_supersetAt hp x set children).mono fun v hv => ?_)
    · obtain ⟨k, set', hs, hsub, hpv⟩ := hv
      exact ⟨k :: set', hs, List.Subset.trans hsub (List.subset_cons_self k set'), hpv⟩
    · obtain ⟨set', hs, hsub, hpv⟩ := hv
      exact ⟨x :: set', hs, List.cons_subset_cons x hsub, hpv⟩
theorem Children.finds_superset (hp : StopsBy E p) : ∀ (set : List K) (children : Children K V),
    Finds E (children.findSuperset lt p set)
      fun v => ∃ k set', children.Stores k set' v ∧ set ⊆ set' ∧ p v = .ok true
  | _, .nil => trivial
  | set, .cons k child rest => by
    refine .firstOf ((Node.finds_superset hp set child).mono fun v hv => ?_)
      ((Children.finds_superset hp set rest).mono fun v hv => ?_)
    · obtain ⟨set', hs, hsub⟩ := hv
      exact ⟨k, set', .inl ⟨rfl, hs⟩, hsub⟩
    · obtain ⟨k', set', hs, hsub⟩ := hv
      exact ⟨k', set', .inr hs, hsub⟩
theorem Children.finds_supersetAt (hp : StopsBy E p) (x : K) (set : List K) : ∀ children : Children K V,
    Finds E (children.findSupersetAt lt p x set)
      fun v => ∃ set', children.Stores x set' v ∧ set ⊆ set' ∧ p v = .ok true
  | .nil => trivial
  | .cons k child rest => by
    unfold Children.findSupersetAt
    split_ifs with h₁ h₂
    · refine (Children.finds_supersetAt hp x set rest).mono fun v hv => ?_
      obtain ⟨set', hs, hsub⟩ := hv
      exact ⟨set', .inr hs, hsub⟩
    · refine (Node.finds_superset hp set child).mono fun v hv => ?_
      obtain ⟨set', hs, hsub⟩ := hv
      exact ⟨set', .inl ⟨h₂, hs⟩, hsub⟩
    · exact trivial
end

end Stores

end MapOfSets

end TaseVerifier
