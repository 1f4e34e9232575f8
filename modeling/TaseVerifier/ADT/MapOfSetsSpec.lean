import Mathlib.Data.Finset.Sort
import Mathlib.Data.List.TakeWhile
import TaseVerifier.ADT.MapOfSets

/-! The trie of sets against the map from sets to values that it stands for. The children of a
node are in strict order, and a path from the root spells a set in order; so the lower bounds
and the breaks of the searches leave nothing out. -/

namespace TaseVerifier

namespace MapOfSets

variable {K V : Type}

/-! ### The lists of subsets and supersets -/

section Lists

variable [DecidableEq K] (lt : K → K → Bool)

def Children.find (k : K) : Children K V → Option (Node K V)
  | .nil => none
  | .cons k' child rest => if k = k' then some child else Children.find k rest

def Node.children : Node K V → Children K V
  | .node _ children => children

/-- The set that ends at the node. -/
def Node.own (accum : Finset K) : Node K V → List (Finset K × V)
  | .node (some v) _ => [(accum, v)]
  | .node none _ => []

/-- The loop of `findSubsets` over the elements, each looked for among the children. -/
def findSubsetsLoop (accum : Finset K) : List K → Node K V → List (Finset K × V)
  | [], _ => []
  | elt :: set, n =>
    (match n.children.find elt with
      | none => []
      | some child => child.own (insert elt accum) ++ findSubsetsLoop (insert elt accum) set child) ++
    findSubsetsLoop accum set n

def Node.findSubsets (accum : Finset K) (set : List K) (n : Node K V) : List (Finset K × V) :=
  n.own accum ++ findSubsetsLoop accum set n

mutual
def Node.findSupersets (accum : Finset K) : List K → Node K V → List (Finset K × V)
  | [], .node value children =>
    (Node.node value children).own accum ++ Children.findSupersets accum [] children
  | elt :: set, .node _ children => Children.findSupersets accum (elt :: set) children
def Children.findSupersets (accum : Finset K) : List K → Children K V → List (Finset K × V)
  | _, .nil => []
  | [], .cons k child rest =>
    Node.findSupersets (insert k accum) [] child ++ Children.findSupersets accum [] rest
  | elt :: set, .cons k child rest =>
    if elt = k then
      Node.findSupersets (insert k accum) set child ++ Children.findSupersets accum (elt :: set) rest
    else if lt k elt then
      Node.findSupersets (insert k accum) (elt :: set) child ++
        Children.findSupersets accum (elt :: set) rest
    -- the keys that follow are larger still
    else []
end

end Lists

/-! ### The class -/

section Class

variable [LinearOrder K]

/-- The order of `std::set` and `std::map`. -/
def less (a b : K) : Bool := decide (a < b)

/-- What the iterators of a `std::set` go over. -/
def elements (S : Finset K) : List K := S.sort (· ≤ ·)

def insert (m : Node K V) (S : Finset K) (v : V) : Node K V := Node.insert less (elements S) v m

def lookup (m : Node K V) (S : Finset K) : Option V := m.lookup (elements S)

def findSubset {ε : Type} (m : Node K V) (S : Finset K) (p : V → Except ε Bool) :
    Except ε (Option V) := m.findSubset less p (elements S)

def findSuperset {ε : Type} (m : Node K V) (S : Finset K) (p : V → Except ε Bool) :
    Except ε (Option V) := m.findSuperset less p (elements S)

def subsets (m : Node K V) (S : Finset K) : List (Finset K × V) := m.findSubsets ∅ (elements S)

def supersets (m : Node K V) (S : Finset K) : List (Finset K × V) :=
  m.findSupersets less ∅ (elements S)

/-- The trie after the calls of `insert`. -/
def run (calls : List (Finset K × V)) : Node K V :=
  calls.foldl (fun m c => insert m c.1 c.2) empty

/-- The map that the calls describe: each sets the value of its own set. -/
def inserted (calls : List (Finset K × V)) : Finset K → Option V :=
  calls.foldl (fun f c => Function.update f c.1 (some c.2)) fun _ => none

end Class

/-! ### Order -/

section Order

variable [LinearOrder K]

def Children.keys : Children K V → List K
  | .nil => []
  | .cons k _ rest => k :: rest.keys

mutual
/-- The keys of every map are in strict order. -/
def Node.Sorted : Node K V → Prop
  | .node _ children => children.Sorted
def Children.Sorted : Children K V → Prop
  | .nil => True
  | .cons k child rest => child.Sorted ∧ rest.Sorted ∧ ∀ k' ∈ rest.keys, k < k'
end

theorem sorted_path (v : V) : ∀ set : List K, (path set v).Sorted
  | [] => trivial
  | _ :: set => ⟨sorted_path v set, trivial, by simp [Children.keys]⟩

theorem Children.mem_keys_insert {k k' : K} {set : List K} {v : V} : ∀ {children : Children K V},
    k' ∈ (Children.insert less k set v children).keys → k' = k ∨ k' ∈ children.keys
  | .nil, h => .inl (List.mem_singleton.mp h)
  | .cons k₁ child rest, h => by
    unfold Children.insert at h
    split_ifs at h with h₁ h₂
    · exact (List.mem_cons.mp h)
    · exact .inr h
    · rcases List.mem_cons.mp h with rfl | h
      · exact .inr List.mem_cons_self
      · exact (Children.mem_keys_insert h).imp_right (List.mem_cons_of_mem _)

mutual
theorem Node.Sorted.insert {v : V} : ∀ (set : List K) {n : Node K V}, n.Sorted →
    (Node.insert less set v n).Sorted
  | [], .node _ _, h => h
  | k :: set, .node _ _, h => Children.Sorted.insert k set h
theorem Children.Sorted.insert {v : V} (k : K) (set : List K) : ∀ {children : Children K V},
    children.Sorted → (Children.insert less k set v children).Sorted
  | .nil, _ => ⟨sorted_path v set, trivial, by simp [Children.keys]⟩
  | .cons k₁ child rest, h => by
    unfold Children.insert
    split_ifs with h₁ h₂
    · rw [less, decide_eq_true_eq] at h₁
      refine ⟨sorted_path v set, h, List.forall_mem_cons.mpr ⟨h₁, fun k' hk' => ?_⟩⟩
      exact h₁.trans (h.2.2 k' hk')
    · exact ⟨h.1.insert set, h.2⟩
    · refine ⟨h.1, h.2.1.insert k set, fun k' hk' => ?_⟩
      rw [less, decide_eq_true_eq] at h₁
      rcases Children.mem_keys_insert hk' with rfl | hk'
      · exact lt_of_le_of_ne (not_lt.mp h₁) (Ne.symm h₂)
      · exact h.2.2 k' hk'
end

/-! ### What an insertion changes -/

theorem lookup_path (set : List K) (v : V) :
    ∀ set', (path set v).lookup set' = if set' = set then some v else none := by
  induction set with
  | nil =>
    intro set'
    cases set' <;> simp [path, Node.lookup, Children.lookup]
  | cons k set ih =>
    intro set'
    cases set' with
    | nil => simp [path, Node.lookup]
    | cons k' set' =>
      simp only [path, Node.lookup, Children.lookup, ih, List.cons.injEq]
      by_cases hk : k' = k <;> simp [hk]

theorem Children.lookup_of_lt {k : K} (set : List K) : ∀ {children : Children K V},
    (∀ k' ∈ children.keys, k < k') → children.lookup k set = none
  | .nil, _ => rfl
  | .cons k₁ child rest, h => by
    obtain ⟨h₁, hrest⟩ := List.forall_mem_cons.mp h
    rw [Children.lookup, if_neg h₁.ne]
    exact Children.lookup_of_lt set hrest

mutual
theorem Node.lookup_insert {v : V} : ∀ (set : List K) {n : Node K V}, n.Sorted → ∀ set' : List K,
    (Node.insert less set v n).lookup set' = if set' = set then some v else n.lookup set'
  | [], .node _ _, _, [] => rfl
  | [], .node _ _, _, _ :: _ => rfl
  | _ :: _, .node _ _, _, [] => rfl
  | k :: set, .node _ children, h, k' :: set' => by
    simp only [Node.insert, Node.lookup, Children.lookup_insert k set h, List.cons.injEq]
theorem Children.lookup_insert {v : V} (k : K) (set : List K) :
    ∀ {children : Children K V}, children.Sorted → ∀ (k' : K) (set' : List K),
      (Children.insert less k set v children).lookup k' set' =
        if k' = k ∧ set' = set then some v else children.lookup k' set'
  | .nil, _, k', set' => by
    simp only [Children.insert, Children.lookup, lookup_path]
    by_cases hk : k' = k <;> simp [hk]
  | .cons k₁ child rest, h, k', set' => by
    rw [Children.insert]
    by_cases h₁ : less k k₁ = true
    · rw [if_pos h₁, Children.lookup, lookup_path]
      by_cases hk : k' = k
      · subst hk
        rw [less, decide_eq_true_eq] at h₁
        have habove : ∀ k₂ ∈ (Children.cons k₁ child rest).keys, k' < k₂ :=
          List.forall_mem_cons.mpr ⟨h₁, fun k₂ hk₂ => h₁.trans (h.2.2 k₂ hk₂)⟩
        rw [Children.lookup_of_lt set' habove]
        simp
      · simp [hk]
    · rw [if_neg h₁]
      by_cases h₂ : k = k₁
      · subst h₂
        rw [if_pos rfl]
        simp only [Children.lookup, Node.lookup_insert set h.1]
        by_cases hk : k' = k <;> simp [hk]
      · rw [if_neg h₂]
        simp only [Children.lookup, Children.lookup_insert k set h.2.1]
        by_cases hk : k' = k₁
        · subst hk
          simp [Ne.symm h₂]
        · simp [hk]
end

mutual
/-- A sorted trie stores for a path what the lookup finds. -/
theorem Node.stores_iff_lookup {v : V} : ∀ (set : List K) {n : Node K V}, n.Sorted →
    (n.Stores set v ↔ n.lookup set = some v)
  | [], .node _ _, _ => Iff.rfl
  | k :: set, .node _ _, h => Children.stores_iff_lookup k set h
theorem Children.stores_iff_lookup {v : V} (k : K) (set : List K) :
    ∀ {children : Children K V}, children.Sorted →
      (children.Stores k set v ↔ children.lookup k set = some v)
  | .nil, _ => by simp [Children.Stores, Children.lookup]
  | .cons k₁ child rest, h => by
    rw [Children.Stores, Children.lookup, Node.stores_iff_lookup set h.1,
      Children.stores_iff_lookup k set h.2.1]
    by_cases hk : k = k₁
    · subst hk
      rw [Children.lookup_of_lt set h.2.2]
      simp
    · simp [hk]
end

omit [LinearOrder K] in
theorem Children.mem_keys_of_stores {k : K} {set : List K} {v : V} :
    ∀ {children : Children K V}, children.Stores k set v → k ∈ children.keys
  | .nil, h => h.elim
  | .cons _ _ _, .inl ⟨hk, _⟩ => hk ▸ List.mem_cons_self
  | .cons _ _ _, .inr h => List.mem_cons_of_mem _ (Children.mem_keys_of_stores h)

/-! ### What a trie stands for -/

theorem elements_sorted (S : Finset K) : (elements S).Pairwise (· < ·) :=
  (Finset.sortedLT_sort S).pairwise

theorem mem_elements {S : Finset K} {x : K} : x ∈ elements S ↔ x ∈ S := Finset.mem_sort _

theorem elements_toFinset (S : Finset K) : (elements S).toFinset = S := Finset.sort_toFinset _ _

theorem elements_injective : Function.Injective (elements : Finset K → List K) :=
  fun S T h => by rw [← elements_toFinset S, h, elements_toFinset]

theorem elements_subset {S T : Finset K} : elements S ⊆ elements T ↔ S ⊆ T := by
  simp only [List.subset_def, Finset.subset_iff, mem_elements]

/-- The trie is sorted, and its paths are the sets of the map with their values. -/
structure Represents (m : Node K V) (f : Finset K → Option V) : Prop where
  sorted : m.Sorted
  lookup : ∀ S, lookup m S = f S
  stores : ∀ path v, m.Stores path v → ∃ S, path = elements S

theorem represents_empty : Represents (empty : Node K V) fun _ => none where
  sorted := trivial
  lookup S := by
    rw [MapOfSets.lookup]
    cases elements S <;> rfl
  stores path v h := (not_stores_empty path v h).elim

theorem Represents.insert {m : Node K V} {f : Finset K → Option V} (h : Represents m f)
    (S : Finset K) (v : V) : Represents (insert m S v) (Function.update f S (some v)) where
  sorted := h.sorted.insert _
  lookup T := by
    rw [MapOfSets.lookup, MapOfSets.insert, Node.lookup_insert _ h.sorted, Function.update_apply]
    simp only [elements_injective.eq_iff]
    split_ifs with hT
    · rfl
    · exact h.lookup T
  stores path w hs := by
    rcases Node.stores_insert (elements S) m hs with ⟨rfl, -⟩ | hs
    · exact ⟨S, rfl⟩
    · exact h.stores path w hs

/-- After any calls the trie stands for the map that they describe. -/
theorem represents_run (calls : List (Finset K × V)) : Represents (run calls) (inserted calls) := by
  have hfrom : ∀ (calls : List (Finset K × V)) (m : Node K V) (f : Finset K → Option V),
      Represents m f → Represents (calls.foldl (fun m c => MapOfSets.insert m c.1 c.2) m)
        (calls.foldl (fun f c => Function.update f c.1 (some c.2)) f) := by
    intro calls
    induction calls with
    | nil => exact fun _ _ h => h
    | cons c calls ih => exact fun m f h => ih _ _ (h.insert c.1 c.2)
  exact hfrom calls empty _ represents_empty

theorem Represents.stores_iff {m : Node K V} {f : Finset K → Option V} (h : Represents m f)
    {path : List K} {v : V} : m.Stores path v ↔ ∃ S, path = elements S ∧ f S = some v := by
  constructor
  · intro hs
    obtain ⟨S, rfl⟩ := h.stores path v hs
    exact ⟨S, rfl, h.lookup S ▸ (Node.stores_iff_lookup _ h.sorted).mp hs⟩
  · rintro ⟨S, rfl, hv⟩
    exact (Node.stores_iff_lookup _ h.sorted).mpr ((h.lookup S).trans hv)

/-! ### The searches leave nothing out -/

variable {ε : Type} {p : V → Except ε Bool}

omit [LinearOrder K] in
theorem firstOf_eq_none {x y : Except ε (Option V)} (h : firstOf x y = .ok none) :
    x = .ok none ∧ y = .ok none := by
  match x with
  | .ok none => exact ⟨rfl, h⟩
  | .ok (some v) => cases h
  | .error err => cases h

omit [LinearOrder K] in
theorem check_eq_none {v : V} (h : check p (some v) = .ok none) : p v = .ok false := by
  rw [check] at h
  cases hv : p v with
  | ok b =>
    cases b with
    | false => rfl
    | true =>
      rw [hv] at h
      cases h
  | error err =>
    rw [hv] at h
    cases h

/-- What lies above `k` is left when what lies below it has been dropped. -/
theorem mem_dropWhile {k y : K} {set : List K} (hy : y ∈ set) (hle : k ≤ y) :
    y ∈ set.dropWhile (less · k) := by
  rw [← List.takeWhile_append_dropWhile (p := (less · k)) (l := set), List.mem_append] at hy
  refine hy.resolve_left fun hbelow => ?_
  have hlt := List.mem_takeWhile_imp hbelow
  rw [less, decide_eq_true_eq] at hlt
  exact absurd hle (not_le.mpr hlt)

theorem le_of_dropWhile {k x : K} {set tail : List K}
    (h : set.dropWhile (less · k) = x :: tail) : k ≤ x := by
  have hnot := List.head_dropWhile_not (less · k) (l := set) (by rw [h]; exact List.cons_ne_nil _ _)
  simp only [h, List.head_cons] at hnot
  simpa [less] using hnot

theorem subset_of_cons_subset {x : K} {path tail : List K} (h : path ⊆ x :: tail)
    (hx : ∀ y ∈ path, x < y) : path ⊆ tail :=
  fun _ hy => (List.mem_cons.mp (h hy)).resolve_left fun heq => (hx _ hy).ne' heq

mutual
theorem Node.findSubset_none : ∀ {set : List K} (n : Node K V), n.Sorted → set.Pairwise (· < ·) →
    n.findSubset less p set = .ok none → ∀ {path v}, n.Stores path v → path.Pairwise (· < ·) →
      path ⊆ set → p v = .ok false
  | set, .node value children, hn, hset, hnone, [], v, hs, _, _ => by
    obtain rfl : value = some v := hs
    exact check_eq_none (firstOf_eq_none hnone).1
  | set, .node value children, hn, hset, hnone, k :: path, v, hs, hpath, hsub =>
    Children.findSubset_none children hn hset (firstOf_eq_none hnone).2 hs hpath hsub
theorem Children.findSubset_none : ∀ {set : List K} (children : Children K V), children.Sorted →
    set.Pairwise (· < ·) → children.findSubset less p set = .ok none →
      ∀ {k path v}, children.Stores k path v → (k :: path).Pairwise (· < ·) → k :: path ⊆ set →
        p v = .ok false
  | _, .nil, _, _, _, _, _, _, hs, _, _ => hs.elim
  | set, .cons k₁ child rest, hn, hset, hnone, k, path, v, hs, hpath, hsub => by
    have hge : ∀ y ∈ k :: path, k ≤ y :=
      List.forall_mem_cons.mpr ⟨le_rfl, fun y hy => ((List.pairwise_cons.mp hpath).1 y hy).le⟩
    have hk₁ : k₁ ≤ k := by
      rcases hs with ⟨rfl, -⟩ | hs
      · exact le_rfl
      · exact (hn.2.2 k (Children.mem_keys_of_stores hs)).le
    -- the whole path is among the elements that are not skipped
    have hleft : k :: path ⊆ set.dropWhile (less · k₁) :=
      fun y hy => mem_dropWhile (hsub hy) (hk₁.trans (hge y hy))
    have hsuffix := (set.dropWhile_suffix (less · k₁)).sublist
    unfold Children.findSubset at hnone
    split at hnone
    next hdrop =>
      rw [hdrop] at hleft
      exact absurd (hleft List.mem_cons_self) (List.not_mem_nil)
    next x tail hdrop =>
      have htail : (x :: tail).Pairwise (· < ·) := hdrop ▸ hset.sublist hsuffix
      have hx := le_of_dropWhile hdrop
      rw [hdrop] at hleft
      have hpathrest (hxk : x = k₁) (hs : rest.Stores k path v) : k :: path ⊆ tail := by
        have hlt : k₁ < k := hn.2.2 k (Children.mem_keys_of_stores hs)
        exact subset_of_cons_subset hleft fun y hy => hxk ▸ hlt.trans_le (hge y hy)
      have hchild (hxk : x = k₁) (h : Node.findSubset less p tail child = .ok none)
          (hk : k = k₁) (hs : child.Stores path v) : p v = .ok false := by
        refine Node.findSubset_none child hn.1 htail.tail h hs hpath.tail ?_
        have hpathsub : path ⊆ x :: tail := List.subset_of_cons_subset hleft
        exact subset_of_cons_subset hpathsub (hxk ▸ hk ▸ (List.pairwise_cons.mp hpath).1)
      split_ifs at hnone with hxk hnil
      · rcases hs with ⟨hk, hs⟩ | hs
        · exact hchild hxk (firstOf_eq_none hnone).1 hk hs
        · have hsub := hpathrest hxk hs
          rw [hnil] at hsub
          exact absurd (hsub List.mem_cons_self) List.not_mem_nil
      · rcases hs with ⟨hk, hs⟩ | hs
        · exact hchild hxk (firstOf_eq_none hnone).1 hk hs
        · exact Children.findSubset_none rest hn.2.1 htail.tail (firstOf_eq_none hnone).2 hs hpath
            (hpathrest hxk hs)
      · rcases hs with ⟨rfl, hs⟩ | hs
        · rcases List.mem_cons.mp (hleft List.mem_cons_self) with hk | hk
          · exact absurd hk.symm hxk
          · exact absurd ((List.pairwise_cons.mp htail).1 k hk) (not_lt.mpr hx)
        · exact Children.findSubset_none rest hn.2.1 htail hnone hs hpath hleft
end

/-- A sorted path above `x` that holds the rest of the set holds it below its first element. -/
theorem subset_of_subset_cons {k x : K} {set path : List K} (hset : (x :: set).Pairwise (· < ·))
    (hpath : (k :: path).Pairwise (· < ·)) (h : x :: set ⊆ k :: path) :
    set ⊆ path ∧ (x ≠ k → x :: set ⊆ path) ∧ k ≤ x := by
  have hkx : k ≤ x := by
    rcases List.mem_cons.mp (h List.mem_cons_self) with hx | hx
    · exact hx.ge
    · exact ((List.pairwise_cons.mp hpath).1 x hx).le
  have habove : ∀ y ∈ set, k < y := fun y hy => hkx.trans_lt ((List.pairwise_cons.mp hset).1 y hy)
  have hset' : set ⊆ path := subset_of_cons_subset (List.subset_of_cons_subset h) habove
  refine ⟨hset', fun hne => ?_, hkx⟩
  exact subset_of_cons_subset h
    (List.forall_mem_cons.mpr ⟨lt_of_le_of_ne hkx (Ne.symm hne), habove⟩)

mutual
theorem Node.findSuperset_none : ∀ {set : List K} (n : Node K V), n.Sorted →
    set.Pairwise (· < ·) → n.findSuperset less p set = .ok none →
      ∀ {path v}, n.Stores path v → path.Pairwise (· < ·) → set ⊆ path → p v = .ok false
  | [], .node value children, _, _, hnone, [], v, hs, _, _ => by
    obtain rfl : value = some v := hs
    exact check_eq_none (firstOf_eq_none hnone).1
  | [], .node value children, hn, hset, hnone, k :: path, v, hs, hpath, _ =>
    Children.findSuperset_none children hn hset (firstOf_eq_none hnone).2 hs hpath.tail
      (List.nil_subset _)
  | x :: set, .node value children, _, _, _, [], v, _, _, hsub =>
    absurd (hsub List.mem_cons_self) List.not_mem_nil
  | x :: set, .node value children, hn, hset, hnone, k :: path, v, hs, hpath, hsub => by
    obtain ⟨hrest, hall, -⟩ := subset_of_subset_cons hset hpath hsub
    by_cases hx : x = k
    · subst hx
      exact Children.findSupersetAt_none children hn hset.tail (firstOf_eq_none hnone).2 hs
        hpath.tail hrest
    · exact Children.findSuperset_none children hn hset (firstOf_eq_none hnone).1 hs hpath.tail
        (hall hx)
theorem Children.findSuperset_none : ∀ {set : List K} (children : Children K V), children.Sorted →
    set.Pairwise (· < ·) → children.findSuperset less p set = .ok none →
      ∀ {k path v}, children.Stores k path v → path.Pairwise (· < ·) → set ⊆ path →
        p v = .ok false
  | _, .nil, _, _, _, _, _, _, hs, _, _ => hs.elim
  | set, .cons _ child rest, hn, hset, hnone, k, path, v, hs, hpath, hsub => by
    obtain ⟨hchild, hrest⟩ := firstOf_eq_none hnone
    rcases hs with ⟨-, hs⟩ | hs
    · exact Node.findSuperset_none child hn.1 hset hchild hs hpath hsub
    · exact Children.findSuperset_none rest hn.2.1 hset hrest hs hpath hsub
theorem Children.findSupersetAt_none {x : K} : ∀ {set : List K} (children : Children K V),
    children.Sorted → set.Pairwise (· < ·) → children.findSupersetAt less p x set = .ok none →
      ∀ {path v}, children.Stores x path v → path.Pairwise (· < ·) → set ⊆ path →
        p v = .ok false
  | _, .nil, _, _, _, _, _, hs, _, _ => hs.elim
  | set, .cons k child rest, hn, hset, hnone, path, v, hs, hpath, hsub => by
    have hlt (hs : rest.Stores x path v) : k < x := hn.2.2 x (Children.mem_keys_of_stores hs)
    unfold Children.findSupersetAt at hnone
    split_ifs at hnone with h₁ h₂
    · rw [less, decide_eq_true_eq] at h₁
      rcases hs with ⟨rfl, -⟩ | hs
      · exact absurd h₁ (lt_irrefl _)
      · exact Children.findSupersetAt_none rest hn.2.1 hset hnone hs hpath hsub
    · rcases hs with ⟨-, hs⟩ | hs
      · exact Node.findSuperset_none child hn.1 hset hnone hs hpath hsub
      · exact absurd h₂ (hlt hs).ne'
    · rw [less, decide_eq_true_eq] at h₁
      rcases hs with ⟨hx, -⟩ | hs
      · exact absurd hx h₂
      · exact absurd (hlt hs) h₁
end

/-! ### The lists hold what matches, once -/

variable {accum T : Finset K} {v : V}

omit [LinearOrder K] in
theorem Node.mem_own {n : Node K V} : (T, v) ∈ n.own accum ↔ n.Stores [] v ∧ T = accum := by
  match n with
  | .node none _ => simp [Node.own, Node.Stores]
  | .node (some w) _ =>
    rw [Node.own, List.mem_singleton, Prod.mk.injEq, Node.Stores, Option.some.injEq]
    constructor
    · rintro ⟨rfl, rfl⟩
      exact ⟨rfl, rfl⟩
    · rintro ⟨rfl, rfl⟩
      exact ⟨rfl, rfl⟩

omit [LinearOrder K] in
theorem Node.nodup_own (n : Node K V) : ((n.own accum).map Prod.fst).Nodup := by
  match n with
  | .node none _ => exact List.nodup_nil
  | .node (some _) _ => exact List.nodup_singleton _

theorem Children.stores_iff_find {k : K} {path : List K} : ∀ {children : Children K V},
    children.Sorted →
      (children.Stores k path v ↔ ∃ child, children.find k = some child ∧ child.Stores path v)
  | .nil, _ => by simp [Children.Stores, Children.find]
  | .cons k₁ child rest, h => by
    rw [Children.Stores, Children.find, Children.stores_iff_find h.2.1]
    by_cases hk : k = k₁
    · subst hk
      have hnone : ¬ ∃ child', rest.find k = some child' ∧ child'.Stores path v := by
        rw [← Children.stores_iff_find h.2.1]
        exact fun hs => absurd (h.2.2 k (Children.mem_keys_of_stores hs)) (lt_irrefl k)
      simp [hnone]
    · simp [hk]

theorem Children.Sorted.of_find {k : K} {child : Node K V} : ∀ {children : Children K V},
    children.Sorted → children.find k = some child → child.Sorted
  | .cons k₁ child₁ rest, h, hfind => by
    unfold Children.find at hfind
    split_ifs at hfind with hk
    · exact Option.some.inj hfind ▸ h.1
    · exact h.2.1.of_find hfind

/-- The stored path is sorted and goes through elements of the set. -/
def Node.StoresIn (n : Node K V) (set path : List K) (v : V) : Prop :=
  n.Stores path v ∧ path.Pairwise (· < ·) ∧ path ⊆ set

theorem findSubsetsLoop_cons (elt : K) (set : List K) (n : Node K V) :
    findSubsetsLoop accum (elt :: set) n =
      (match n.children.find elt with
        | none => []
        | some child => child.findSubsets (Insert.insert elt accum) set) ++
      findSubsetsLoop accum set n := rfl

/-- The set of the node itself is that of the empty path. -/
theorem mem_findSubsets_of_loop {set : List K} {n : Node K V}
    (h : (T, v) ∈ findSubsetsLoop accum set n ↔
      ∃ k path, n.StoresIn set (k :: path) v ∧ T = accum ∪ (k :: path).toFinset) :
    (T, v) ∈ n.findSubsets accum set ↔
      ∃ path, n.StoresIn set path v ∧ T = accum ∪ path.toFinset := by
  rw [Node.findSubsets, List.mem_append, Node.mem_own, h]
  constructor
  · rintro (⟨hs, rfl⟩ | ⟨k, path, hs, hT⟩)
    · exact ⟨[], ⟨hs, .nil, List.nil_subset _⟩, by simp⟩
    · exact ⟨k :: path, hs, hT⟩
  · rintro ⟨path, hs, hT⟩
    cases path with
    | nil => exact .inl ⟨hs.1, by simpa using hT⟩
    | cons k path => exact .inr ⟨k, path, hs, hT⟩

theorem mem_findSubsetsLoop {set : List K} : ∀ {accum : Finset K} {n : Node K V}, n.Sorted →
    set.Pairwise (· < ·) → ((T, v) ∈ findSubsetsLoop accum set n ↔
      ∃ k path, n.StoresIn set (k :: path) v ∧ T = accum ∪ (k :: path).toFinset) := by
  induction set with
  | nil => simp [findSubsetsLoop, Node.StoresIn]
  | cons elt set ih =>
    intro accum n hn hset
    obtain ⟨helt, hset⟩ := List.pairwise_cons.mp hset
    have hfirst : ((T, v) ∈ (match n.children.find elt with
        | none => []
        | some child => child.findSubsets (Insert.insert elt accum) set)) ↔
        ∃ path, n.StoresIn (elt :: set) (elt :: path) v ∧ T = accum ∪ (elt :: path).toFinset := by
      obtain ⟨value, children⟩ := n
      have hT (path : List K) : Insert.insert elt accum ∪ path.toFinset =
          accum ∪ (elt :: path).toFinset := by
        rw [List.toFinset_cons, Finset.insert_union, Finset.union_insert]
      simp only [Node.children, Node.StoresIn, Node.Stores, Children.stores_iff_find hn]
      cases hfind : children.find elt with
      | none => simp
      | some child =>
        have hchild : child.Sorted := Children.Sorted.of_find hn hfind
        rw [mem_findSubsets_of_loop (ih hchild hset)]
        constructor
        · rintro ⟨path, ⟨hs, hpath, hsub⟩, rfl⟩
          refine ⟨path, ⟨⟨child, rfl, hs⟩, ?_, List.cons_subset_cons elt hsub⟩, hT path⟩
          exact List.pairwise_cons.mpr ⟨fun y hy => helt y (hsub hy), hpath⟩
        · rintro ⟨path, ⟨⟨child', hfind', hs⟩, hpath, hsub⟩, rfl⟩
          obtain rfl := Option.some.inj hfind'
          obtain ⟨habove, hpath⟩ := List.pairwise_cons.mp hpath
          refine ⟨path, ⟨hs, hpath, ?_⟩, (hT path).symm⟩
          exact subset_of_cons_subset (List.subset_of_cons_subset hsub) habove
    rw [findSubsetsLoop_cons, List.mem_append, hfirst, ih hn hset]
    constructor
    · rintro (⟨path, hs, hT⟩ | ⟨k, path, ⟨hs, hpath, hsub⟩, hT⟩)
      · exact ⟨elt, path, hs, hT⟩
      · exact ⟨k, path, ⟨hs, hpath, List.subset_cons_of_subset elt hsub⟩, hT⟩
    · rintro ⟨k, path, ⟨hs, hpath, hsub⟩, hT⟩
      by_cases hk : k = elt
      · subst hk
        exact .inl ⟨path, ⟨hs, hpath, hsub⟩, hT⟩
      · have hlt : elt < k := helt k ((List.mem_cons.mp (hsub List.mem_cons_self)).resolve_left hk)
        refine .inr ⟨k, path, ⟨hs, hpath, subset_of_cons_subset hsub ?_⟩, hT⟩
        exact List.forall_mem_cons.mpr
          ⟨hlt, fun y hy => hlt.trans ((List.pairwise_cons.mp hpath).1 y hy)⟩

theorem mem_findSubsets {set : List K} {n : Node K V} (hn : n.Sorted)
    (hset : set.Pairwise (· < ·)) : (T, v) ∈ n.findSubsets accum set ↔
      ∃ path, n.StoresIn set path v ∧ T = accum ∪ path.toFinset :=
  mem_findSubsets_of_loop (mem_findSubsetsLoop hn hset)

omit [LinearOrder K] in
/-- The sets of two lists joined are distinct where those of each are and none is in both. -/
theorem nodup_map_append {xs ys : List (Finset K × V)} (hx : (xs.map Prod.fst).Nodup)
    (hy : (ys.map Prod.fst).Nodup)
    (hxy : ∀ {S v w}, (S, v) ∈ xs → (S, w) ∈ ys → False) :
    ((xs ++ ys).map Prod.fst).Nodup := by
  rw [List.map_append, List.nodup_append']
  refine ⟨hx, hy, fun S hS hS' => ?_⟩
  obtain ⟨⟨S, v⟩, hv, rfl⟩ := List.mem_map.mp hS
  obtain ⟨⟨S', w⟩, hw, rfl⟩ := List.mem_map.mp hS'
  exact hxy hv hw

theorem nodup_findSubsets_of_loop {set : List K} {n : Node K V} (hn : n.Sorted)
    (hset : set.Pairwise (· < ·)) (haccum : ∀ x ∈ set, x ∉ accum)
    (h : ((findSubsetsLoop accum set n).map Prod.fst).Nodup) :
    ((n.findSubsets accum set).map Prod.fst).Nodup := by
  refine nodup_map_append n.nodup_own h fun hv hw => ?_
  obtain ⟨-, rfl⟩ := Node.mem_own.mp hv
  obtain ⟨k, path, ⟨-, -, hsub⟩, hS⟩ := (mem_findSubsetsLoop hn hset).mp hw
  refine haccum k (hsub List.mem_cons_self) ?_
  rw [hS]
  simp

theorem nodup_findSubsetsLoop {set : List K} : ∀ {accum : Finset K} {n : Node K V}, n.Sorted →
    set.Pairwise (· < ·) → (∀ x ∈ set, x ∉ accum) →
      ((findSubsetsLoop accum set n).map Prod.fst).Nodup := by
  induction set with
  | nil => exact fun _ _ _ => List.nodup_nil
  | cons elt set ih =>
    intro accum n hn hset haccum
    obtain ⟨helt, hset⟩ := List.pairwise_cons.mp hset
    obtain ⟨heltaccum, haccum⟩ := List.forall_mem_cons.mp haccum
    have hnot : elt ∉ set := fun h => lt_irrefl _ (helt elt h)
    have hloop := ih hn hset haccum
    rw [findSubsetsLoop_cons]
    cases hfind : n.children.find elt with
    | none => exact hloop
    | some child =>
      obtain ⟨value, children⟩ := n
      have hchild : child.Sorted := Children.Sorted.of_find hn hfind
      have haccum' : ∀ x ∈ set, x ∉ Insert.insert elt accum := fun x hx hmem =>
        (Finset.mem_insert.mp hmem).elim (fun h => hnot (h ▸ hx)) (haccum x hx)
      have hfirst := nodup_findSubsets_of_loop hchild hset haccum' (ih hchild hset haccum')
      -- the sets of the child contain the element, the others do not
      refine nodup_map_append hfirst hloop fun hv hw => ?_
      obtain ⟨path, -, rfl⟩ := (mem_findSubsets hchild hset).mp hv
      obtain ⟨k, path', ⟨-, -, hsub⟩, hS⟩ := (mem_findSubsetsLoop hn hset).mp hw
      have hmem : elt ∈ accum ∪ (k :: path').toFinset := by
        rw [← hS]
        simp
      rcases Finset.mem_union.mp hmem with hmem | hmem
      · exact heltaccum hmem
      · exact hnot (hsub (List.mem_toFinset.mp hmem))

theorem nodup_findSubsets {set : List K} {n : Node K V} (hn : n.Sorted)
    (hset : set.Pairwise (· < ·)) (haccum : ∀ x ∈ set, x ∉ accum) :
    ((n.findSubsets accum set).map Prod.fst).Nodup :=
  nodup_findSubsets_of_loop hn hset haccum (nodup_findSubsetsLoop hn hset haccum)

/-- Everything that the node stores is sorted and above `accum`. -/
def Node.Above (accum : Finset K) (n : Node K V) : Prop :=
  ∀ path v, n.Stores path v → path.Pairwise (· < ·) ∧ ∀ x ∈ accum, ∀ y ∈ path, x < y

def Children.Above (accum : Finset K) (children : Children K V) : Prop :=
  ∀ k path v, children.Stores k path v →
    (k :: path).Pairwise (· < ·) ∧ ∀ x ∈ accum, ∀ y ∈ k :: path, x < y

theorem Children.Above.child {k : K} {child : Node K V} {rest : Children K V}
    (h : (Children.cons k child rest).Above accum) : child.Above (Insert.insert k accum) := by
  intro path v hs
  obtain ⟨hpath, haccum⟩ := h k path v (.inl ⟨rfl, hs⟩)
  obtain ⟨hk, hpath⟩ := List.pairwise_cons.mp hpath
  refine ⟨hpath, fun x hx y hy => ?_⟩
  rcases Finset.mem_insert.mp hx with rfl | hx
  · exact hk y hy
  · exact haccum x hx y (List.mem_cons_of_mem k hy)

theorem Children.Above.rest {k : K} {child : Node K V} {rest : Children K V}
    (h : (Children.cons k child rest).Above accum) : rest.Above accum :=
  fun k' path v hs => h k' path v (.inr hs)

/-- The sets listed for the first child and for the others, from those below the child. -/
theorem exists_stores_cons {k : K} {child : Node K V} {rest : Children K V} {q : List K → Prop} :
    ((∃ path, child.Stores path v ∧ q (k :: path) ∧ T = Insert.insert k accum ∪ path.toFinset) ∨
      ∃ k' path, rest.Stores k' path v ∧ q (k' :: path) ∧ T = accum ∪ (k' :: path).toFinset) ↔
    ∃ k' path, (Children.cons k child rest).Stores k' path v ∧ q (k' :: path) ∧
      T = accum ∪ (k' :: path).toFinset := by
  have hT (path : List K) : Insert.insert k accum ∪ path.toFinset =
      accum ∪ (k :: path).toFinset := by
    rw [List.toFinset_cons, Finset.insert_union, Finset.union_insert]
  constructor
  · rintro (⟨path, hs, hq, rfl⟩ | ⟨k', path, hs, h⟩)
    · exact ⟨k, path, .inl ⟨rfl, hs⟩, hq, hT path⟩
    · exact ⟨k', path, .inr hs, h⟩
  · rintro ⟨k', path, ⟨rfl, hs⟩ | hs, hq, rfl⟩
    · exact .inl ⟨path, hs, hq, (hT path).symm⟩
    · exact .inr ⟨k', path, hs, hq, rfl⟩

mutual
theorem Node.mem_findSupersets {accum : Finset K} : ∀ {set : List K} (n : Node K V), n.Sorted →
    n.Above accum → set.Pairwise (· < ·) → ((T, v) ∈ n.findSupersets less accum set ↔
      ∃ path, n.Stores path v ∧ set ⊆ path ∧ T = accum ∪ path.toFinset)
  | [], .node value children, hn, habove, hset => by
    rw [Node.findSupersets, List.mem_append, Node.mem_own,
      Children.mem_findSupersets children hn (fun k path v hs => habove (k :: path) v hs) hset]
    constructor
    · rintro (⟨hs, rfl⟩ | ⟨k, path, hs, h⟩)
      · exact ⟨[], hs, List.nil_subset _, by simp⟩
      · exact ⟨k :: path, hs, h⟩
    · rintro ⟨path, hs, hsub, hT⟩
      cases path with
      | nil => exact .inl ⟨hs, by simpa using hT⟩
      | cons k path => exact .inr ⟨k, path, hs, hsub, hT⟩
  | x :: set, .node value children, hn, habove, hset => by
    rw [Node.findSupersets,
      Children.mem_findSupersets children hn (fun k path v hs => habove (k :: path) v hs) hset]
    constructor
    · rintro ⟨k, path, hs, h⟩
      exact ⟨k :: path, hs, h⟩
    · rintro ⟨path, hs, hsub, hT⟩
      cases path with
      | nil => exact absurd (hsub List.mem_cons_self) List.not_mem_nil
      | cons k path => exact ⟨k, path, hs, hsub, hT⟩
theorem Children.mem_findSupersets {accum : Finset K} : ∀ {set : List K} (children : Children K V),
    children.Sorted → children.Above accum → set.Pairwise (· < ·) →
      ((T, v) ∈ children.findSupersets less accum set ↔
        ∃ k path, children.Stores k path v ∧ set ⊆ k :: path ∧ T = accum ∪ (k :: path).toFinset)
  | [], .nil, _, _, _ | _ :: _, .nil, _, _, _ => by
    simp [Children.findSupersets, Children.Stores]
  | [], .cons k child rest, hn, habove, hset => by
    rw [Children.findSupersets, List.mem_append, Node.mem_findSupersets child hn.1 habove.child hset,
      Children.mem_findSupersets rest hn.2.1 habove.rest hset, ← exists_stores_cons]
    simp
  | x :: set, .cons k child rest, hn, habove, hset => by
    rw [Children.findSupersets, ← exists_stores_cons]
    have hrest := Children.mem_findSupersets rest hn.2.1 habove.rest hset
    have hsorted {path : List K} (hs : child.Stores path v) : (k :: path).Pairwise (· < ·) :=
      (habove k path v (.inl ⟨rfl, hs⟩)).1
    by_cases hx : x = k
    · subst hx
      have hset' := (List.pairwise_cons.mp hset).2
      rw [if_pos rfl, List.mem_append, hrest,
        Node.mem_findSupersets child hn.1 habove.child hset']
      refine or_congr (exists_congr fun path => and_congr_right fun hs => and_congr_left' ?_) Iff.rfl
      exact ⟨List.cons_subset_cons x, fun h => (subset_of_subset_cons hset (hsorted hs) h).1⟩
    · rw [if_neg hx]
      by_cases hlt : less k x = true
      · rw [if_pos hlt, List.mem_append, hrest,
          Node.mem_findSupersets child hn.1 habove.child hset]
        refine or_congr (exists_congr fun path => and_congr_right fun hs => and_congr_left' ?_)
          Iff.rfl
        exact ⟨List.subset_cons_of_subset k,
          fun h => (subset_of_subset_cons hset (hsorted hs) h).2.1 hx⟩
      · rw [if_neg hlt]
        rw [less, decide_eq_true_eq] at hlt
        refine ⟨fun h => absurd h List.not_mem_nil, ?_⟩
        rintro (⟨path, hs, hsub, -⟩ | ⟨k', path, hs, hsub, -⟩)
        · have hle := (subset_of_subset_cons hset (hsorted hs) hsub).2.2
          exact absurd (lt_of_le_of_ne hle (Ne.symm hx)) hlt
        · have hle := (subset_of_subset_cons hset (habove k' path v (.inr hs)).1 hsub).2.2
          exact absurd ((hn.2.2 k' (Children.mem_keys_of_stores hs)).trans_le hle) hlt
end

/-- The sets of the first child contain its key, those of the others do not. -/
theorem Children.key_disjoint {k : K} {child : Node K V} {rest : Children K V} {set set' : List K}
    (hn : (Children.cons k child rest).Sorted) (habove : (Children.cons k child rest).Above accum)
    (hset : set.Pairwise (· < ·)) (hset' : set'.Pairwise (· < ·)) {w : V}
    (hv : (T, v) ∈ child.findSupersets less (Insert.insert k accum) set)
    (hw : (T, w) ∈ rest.findSupersets less accum set') : False := by
  obtain ⟨path, hs, -, rfl⟩ := (Node.mem_findSupersets child hn.1 habove.child hset).mp hv
  obtain ⟨k', path', hs', -, hT⟩ :=
    (Children.mem_findSupersets rest hn.2.1 habove.rest hset').mp hw
  have hmem : k ∈ accum ∪ (k' :: path').toFinset := by
    rw [← hT]
    simp
  rcases Finset.mem_union.mp hmem with hmem | hmem
  · exact lt_irrefl k ((habove k path v (.inl ⟨rfl, hs⟩)).2 k hmem k List.mem_cons_self)
  · have hk' := hn.2.2 k' (Children.mem_keys_of_stores hs')
    have hsorted := (habove k' path' w (.inr hs')).1
    rcases List.mem_cons.mp (List.mem_toFinset.mp hmem) with rfl | hmem
    · exact lt_irrefl k hk'
    · exact lt_irrefl k (hk'.trans ((List.pairwise_cons.mp hsorted).1 k hmem))

mutual
theorem Node.nodup_findSupersets {accum : Finset K} : ∀ {set : List K} (n : Node K V), n.Sorted →
    n.Above accum → set.Pairwise (· < ·) →
      ((n.findSupersets less accum set).map Prod.fst).Nodup
  | [], .node value children, hn, habove, hset => by
    have habove' : children.Above accum := fun k path v hs => habove (k :: path) v hs
    refine nodup_map_append (Node.nodup_own _)
      (Children.nodup_findSupersets children hn habove' hset) fun {S v w} hv hw => ?_
    obtain ⟨-, rfl⟩ := Node.mem_own.mp hv
    obtain ⟨k, path, hs, -, hS⟩ := (Children.mem_findSupersets children hn habove' hset).mp hw
    have hmem : k ∈ S := by
      rw [hS]
      simp
    exact lt_irrefl k ((habove' k path w hs).2 k hmem k List.mem_cons_self)
  | _ :: _, .node _ children, hn, habove, hset =>
    Children.nodup_findSupersets children hn (fun k path v hs => habove (k :: path) v hs) hset
theorem Children.nodup_findSupersets {accum : Finset K} : ∀ {set : List K}
    (children : Children K V), children.Sorted → children.Above accum → set.Pairwise (· < ·) →
      ((children.findSupersets less accum set).map Prod.fst).Nodup
  | [], .nil, _, _, _ | _ :: _, .nil, _, _, _ => by
    rw [Children.findSupersets]
    exact List.nodup_nil
  | [], .cons k child rest, hn, habove, hset => by
    rw [Children.findSupersets]
    exact nodup_map_append (Node.nodup_findSupersets child hn.1 habove.child hset)
      (Children.nodup_findSupersets rest hn.2.1 habove.rest hset)
      (Children.key_disjoint hn habove hset hset)
  | x :: set, .cons k child rest, hn, habove, hset => by
    have hset' := (List.pairwise_cons.mp hset).2
    have hrest := Children.nodup_findSupersets rest hn.2.1 habove.rest hset
    rw [Children.findSupersets]
    split_ifs
    · exact nodup_map_append (Node.nodup_findSupersets child hn.1 habove.child hset') hrest
        (Children.key_disjoint hn habove hset' hset)
    · exact nodup_map_append (Node.nodup_findSupersets child hn.1 habove.child hset) hrest
        (Children.key_disjoint hn habove hset hset)
    · exact List.nodup_nil
end

/-! ### The class stands for the map -/

/-- The search returns a value that meets `p` and belongs to a set in `q`, if there is one. -/
def FindsIn (f : Finset K → Option V) (q : Finset K → Prop) (p : V → Bool)
    (x : Except ε (Option V)) : Prop :=
  ∃ found, x = .ok found ∧ (found.isSome ↔ ∃ T v, q T ∧ f T = some v ∧ p v = true) ∧
    ∀ v, found = some v → ∃ T, q T ∧ f T = some v ∧ p v = true

/-- The list has the sets in `q` that have a value, each once and with its value. -/
def Lists (f : Finset K → Option V) (q : Finset K → Prop) (xs : List (Finset K × V)) : Prop :=
  (∀ T v, (T, v) ∈ xs ↔ q T ∧ f T = some v) ∧ (xs.map Prod.fst).Nodup

variable {m : Node K V} {f : Finset K → Option V}

omit [LinearOrder K] in
theorem findsIn_of_finds {q : Finset K → Prop} {p : V → Bool} {x : Except ε (Option V)}
    (hsound : Finds (fun _ => False) x fun v => ∃ T, q T ∧ f T = some v ∧ p v = true)
    (hnone : x = .ok none → ∀ T v, q T → f T = some v → p v = false) : FindsIn f q p x := by
  match x with
  | .error err => exact hsound.elim
  | .ok none =>
    refine ⟨none, rfl, ⟨nofun, ?_⟩, nofun⟩
    rintro ⟨T, v, hT, hv, hp⟩
    rw [hnone rfl T v hT hv] at hp
    cases hp
  | .ok (some v) =>
    obtain ⟨T, h⟩ := hsound
    refine ⟨some v, rfl, ⟨fun _ => ⟨T, v, h⟩, fun _ => rfl⟩, fun w hw => ?_⟩
    exact Option.some.inj hw ▸ ⟨T, h⟩

theorem Represents.findSubset (h : Represents m f) (S : Finset K) (p : V → Bool) :
    FindsIn f (· ⊆ S) p (findSubset m S fun v => (.ok (p v) : Except ε Bool)) := by
  refine findsIn_of_finds ((Node.finds_subset (nofun) _ m).mono fun v hv => ?_)
    fun hnone T v hT hv => ?_
  · obtain ⟨path, hs, hsub, hp⟩ := hv
    obtain ⟨T, rfl, hT⟩ := h.stores_iff.mp hs
    exact ⟨T, elements_subset.mp hsub, hT, Except.ok.inj hp⟩
  · exact Except.ok.inj (Node.findSubset_none m h.sorted (elements_sorted S) hnone
      (h.stores_iff.mpr ⟨T, rfl, hv⟩) (elements_sorted T) (elements_subset.mpr hT))

theorem Represents.findSuperset (h : Represents m f) (S : Finset K) (p : V → Bool) :
    FindsIn f (S ⊆ ·) p (findSuperset m S fun v => (.ok (p v) : Except ε Bool)) := by
  refine findsIn_of_finds ((Node.finds_superset (nofun) _ m).mono fun v hv => ?_)
    fun hnone T v hT hv => ?_
  · obtain ⟨path, hs, hsub, hp⟩ := hv
    obtain ⟨T, rfl, hT⟩ := h.stores_iff.mp hs
    exact ⟨T, elements_subset.mp hsub, hT, Except.ok.inj hp⟩
  · exact Except.ok.inj (Node.findSuperset_none m h.sorted (elements_sorted S) hnone
      (h.stores_iff.mpr ⟨T, rfl, hv⟩) (elements_sorted T) (elements_subset.mpr hT))

theorem Represents.subsets (h : Represents m f) (S : Finset K) :
    Lists f (· ⊆ S) (subsets m S) := by
  refine ⟨fun T v => ?_, nodup_findSubsets h.sorted (elements_sorted S) fun x _ => by simp⟩
  rw [MapOfSets.subsets, mem_findSubsets h.sorted (elements_sorted S)]
  constructor
  · rintro ⟨path, ⟨hs, -, hsub⟩, rfl⟩
    obtain ⟨T, rfl, hT⟩ := h.stores_iff.mp hs
    rw [Finset.empty_union, elements_toFinset]
    exact ⟨elements_subset.mp hsub, hT⟩
  · rintro ⟨hT, hv⟩
    refine ⟨elements T, ⟨h.stores_iff.mpr ⟨T, rfl, hv⟩, elements_sorted T, ?_⟩, ?_⟩
    · exact elements_subset.mpr hT
    · rw [Finset.empty_union, elements_toFinset]

theorem Represents.above (h : Represents m f) : m.Above ∅ := by
  intro path v hs
  obtain ⟨T, rfl, -⟩ := h.stores_iff.mp hs
  exact ⟨elements_sorted T, by simp⟩

theorem Represents.supersets (h : Represents m f) (S : Finset K) :
    Lists f (S ⊆ ·) (supersets m S) := by
  refine ⟨fun T v => ?_, Node.nodup_findSupersets m h.sorted h.above (elements_sorted S)⟩
  rw [MapOfSets.supersets, Node.mem_findSupersets m h.sorted h.above (elements_sorted S)]
  constructor
  · rintro ⟨path, hs, hsub, rfl⟩
    obtain ⟨T, rfl, hT⟩ := h.stores_iff.mp hs
    rw [Finset.empty_union, elements_toFinset]
    exact ⟨elements_subset.mp hsub, hT⟩
  · rintro ⟨hT, hv⟩
    refine ⟨elements T, h.stores_iff.mpr ⟨T, rfl, hv⟩, elements_subset.mpr hT, ?_⟩
    rw [Finset.empty_union, elements_toFinset]

/-- After any calls of `insert`, every query answers for the map that the calls describe. -/
theorem run_answers (calls : List (Finset K × V)) (S : Finset K) :
    lookup (run calls) S = inserted calls S ∧
      (∀ p : V → Bool,
        FindsIn (inserted calls) (· ⊆ S) p
            (findSubset (run calls) S fun v => (.ok (p v) : Except ε Bool)) ∧
          FindsIn (inserted calls) (S ⊆ ·) p
            (findSuperset (run calls) S fun v => (.ok (p v) : Except ε Bool))) ∧
      Lists (inserted calls) (· ⊆ S) (subsets (run calls) S) ∧
        Lists (inserted calls) (S ⊆ ·) (supersets (run calls) S) := by
  have h := represents_run calls
  exact ⟨h.lookup S, fun p => ⟨h.findSubset S p, h.findSuperset S p⟩, h.subsets S, h.supersets S⟩

example :
    (Node.insert less [1, 2, 3] 7 (Node.insert less [2] 6 (Node.insert less [1, 3] 5 empty))).findSupersets
      less ∅ [3] = [({1, 2, 3}, 7), ({1, 3}, 5)] := by decide +kernel

end Order

end MapOfSets

end TaseVerifier
