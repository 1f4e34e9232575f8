import Mathlib.Algebra.Group.Nat.Defs
import Mathlib.Tactic.SplitIfs
import Mathlib.Tactic.Common
import TaseVerifier.Library.SortedKeys

/-! The persistent search tree under the immutable maps and sets. An update copies the path
to the node it changes and rebalances each copied node, so a subtree is shared by all the
trees that hold it; the reference counts only say when a node is freed and are left out. The
values are ordered by their keys, and two keys are one key where neither is less. -/

namespace TaseVerifier

namespace ImmutableTree

open Library Library.SortedKeys

/-- A node with its stored height. The terminator is the one node without a value. -/
inductive Node (V : Type*) where
  | terminator
  | node (left : Node V) (value : V) (height : ℕ) (right : Node V)
deriving DecidableEq

namespace Node

variable {K V : Type*}

/-! ### The source's functions -/

def height : Node V → ℕ
  | terminator => 0
  | node _ _ height _ => height

def isTerminator : Node V → Bool
  | terminator => true
  | node .. => false

/-- `new Node(left, right, value)`. -/
def new (left right : Node V) (value : V) : Node V :=
  node left value (max left.height right.height + 1) right

def balance (left : Node V) (value : V) (right : Node V) : Node V :=
  if left.height > right.height + 2 then
    match left with
    | terminator => new left right value -- its height is zero
    | node ll leftValue _ lr =>
      if ll.height ≥ lr.height then
        new ll (new lr right value) leftValue
      else
        match lr with
        | terminator => new left right value -- its height is zero
        | node lrl lrValue _ lrr =>
          new (new ll lrl leftValue) (new lrr right value) lrValue
  else if right.height > left.height + 2 then
    match right with
    | terminator => new left right value
    | node rl rightValue _ rr =>
      if rr.height ≥ rl.height then
        new (new left rl value) rr rightValue
      else
        match rl with
        | terminator => new left right value
        | node rll rlValue _ rlr =>
          new (new left rll value) (new rlr rr rightValue) rlValue
  else
    new left right value

def size : Node V → ℕ
  | terminator => 0
  | node left _ _ right => left.size + 1 + right.size

/-- The value taken out and the tree that is left. The terminator's own value is unspecified
and stands as `none`. -/
def popMin : Node V → Option V × Node V
  | terminator => (none, terminator)
  | node left value _ right =>
    if left.isTerminator then (some value, right)
    else (left.popMin.1, balance left.popMin.2 value right)

def popMax : Node V → Option V × Node V
  | terminator => (none, terminator)
  | node left value _ right =>
    if right.isTerminator then (some value, left)
    else (right.popMax.1, balance left value right.popMax.2)

section Keys

variable [LinearOrder K] (key : V → K)

def insert (v : V) : Node V → Node V
  | terminator => new terminator terminator v
  | node left value height right =>
    if key v < key value then balance (left.insert v) value right
    else if key value < key v then balance left value (right.insert v)
    else node left value height right

def replace (v : V) : Node V → Node V
  | terminator => new terminator terminator v
  | node left value _ right =>
    if key v < key value then balance (left.replace v) value right
    else if key value < key v then balance left value (right.replace v)
    else new left right v

def remove (k : K) : Node V → Node V
  | terminator => terminator
  | node left value _ right =>
    if k < key value then balance (left.remove k) value right
    else if key value < k then balance left value (right.remove k)
    else if left.isTerminator then right
    else if right.isTerminator then left
    else
      match right.popMin with
      | (some min, nr) => balance left min nr
      | (none, _) => left -- only the terminator has no value

def count (k : K) : Node V → ℕ
  | terminator => 0
  | node left value _ right =>
    if k < key value then left.count k
    else if key value < k then right.count k
    else 1

def lookup (k : K) : Node V → Option V
  | terminator => none
  | node left value _ right =>
    if k < key value then left.lookup k
    else if key value < k then right.lookup k
    else some value

/-- The loop of `lookup_previous`, with the last node it left to the right. -/
def lookup_previousLoop (k : K) : Node V → Option V → Option V
  | terminator, result => result
  | node left value _ right, result =>
    if k < key value then left.lookup_previousLoop k result
    else if key value < k then right.lookup_previousLoop k (some value)
    else some value

def lookup_previous (k : K) (n : Node V) : Option V := n.lookup_previousLoop key k none

end Keys

/-- Asserts that there is a value. -/
def min : Node V → Option V
  | terminator => none
  | node left value _ _ => if left.isTerminator then some value else left.min

def max : Node V → Option V
  | terminator => none
  | node _ value _ right => if right.isTerminator then some value else right.max

/-! ### The shape of a tree -/

/-- The values from left to right. -/
def toList : Node V → List V
  | terminator => []
  | node left value _ right => left.toList ++ value :: right.toList

/-- The number of nodes on a longest path down. -/
def depth : Node V → ℕ
  | terminator => 0
  | node left _ _ right => Max.max left.depth right.depth + 1

/-- Every height field is the depth of its node, and the depths of siblings are at most two
apart. -/
def WellBalanced : Node V → Prop
  | terminator => True
  | node left value height right => left.WellBalanced ∧ right.WellBalanced ∧
      height = (node left value height right).depth ∧
      left.depth ≤ right.depth + 2 ∧ right.depth ≤ left.depth + 2

@[simp] theorem toList_terminator : (terminator : Node V).toList = [] := rfl

@[simp] theorem toList_node (l r : Node V) (x : V) (h : ℕ) :
    (node l x h r).toList = l.toList ++ x :: r.toList := rfl

@[simp] theorem toList_new (l r : Node V) (x : V) :
    (new l r x).toList = l.toList ++ x :: r.toList := rfl

@[simp] theorem isTerminator_iff (n : Node V) : n.isTerminator ↔ n = terminator := by
  cases n <;> simp [isTerminator]

theorem size_eq_length (n : Node V) : n.size = n.toList.length := by
  induction n with
  | terminator => rfl
  | node l x h r ihl ihr => simp only [size, toList_node, ihl, ihr]; simp; omega

theorem WellBalanced.height_eq {n : Node V} (h : n.WellBalanced) : n.height = n.depth := by
  cases n with
  | terminator => rfl
  | node l x height r => exact h.2.2.1

theorem WellBalanced.new {l r : Node V} (hl : l.WellBalanced) (hr : r.WellBalanced) (x : V)
    (hlr : l.height ≤ r.height + 2) (hrl : r.height ≤ l.height + 2) :
    (new l r x).WellBalanced := by
  rw [hl.height_eq, hr.height_eq] at hlr hrl
  exact ⟨hl, hr, by simp [depth, hl.height_eq, hr.height_eq], hlr, hrl⟩

/-- The children of a node, with their heights read off the node's own. -/
theorem WellBalanced.children {l r : Node V} {x : V} {h : ℕ} (hn : (node l x h r).WellBalanced) :
    l.WellBalanced ∧ r.WellBalanced ∧ h = Max.max l.height r.height + 1 ∧
      l.height ≤ r.height + 2 ∧ r.height ≤ l.height + 2 := by
  obtain ⟨hl, hr, hh, hlr, hrl⟩ := hn
  rw [hl.height_eq, hr.height_eq]
  exact ⟨hl, hr, hh, hlr, hrl⟩

/-- A tree whose every path is counted has exponentially many values, so that a height fits
its machine word. -/
theorem WellBalanced.two_pow_le {n : Node V} (hn : n.WellBalanced) :
    2 ^ (n.depth / 3) ≤ n.size + 1 := by
  induction n with
  | terminator => simp [depth]
  | node l x h r ihl ihr =>
    obtain ⟨hl, hr, -, hlr, hrl⟩ := hn
    have hl' := ihl hl
    have hr' := ihr hr
    have hdepth : (node l x h r).depth = Max.max l.depth r.depth + 1 := rfl
    have hlow {d : ℕ} (hd : (node l x h r).depth ≤ d + 3) :
        2 ^ ((node l x h r).depth / 3) ≤ 2 * 2 ^ (d / 3) := by
      rw [← Nat.pow_succ']
      exact Nat.pow_le_pow_right (by omega) (by omega)
    have hleft := hlow (d := l.depth) (by omega)
    have hright := hlow (d := r.depth) (by omega)
    simp only [size]
    omega

/-! ### Rebalancing -/

/-- No rotation changes the order of the values. -/
@[simp] theorem toList_balance (l r : Node V) (x : V) :
    (balance l x r).toList = l.toList ++ x :: r.toList := by
  unfold balance
  split_ifs
  · rcases l with _ | ⟨ll, y, h, lr⟩
    · rfl
    · dsimp only
      split_ifs
      · simp
      · rcases lr with _ | ⟨lrl, z, h', lrr⟩ <;> simp
  · rcases r with _ | ⟨rl, y, h, rr⟩
    · rfl
    · dsimp only
      split_ifs
      · simp
      · rcases rl with _ | ⟨rll, z, h', rlr⟩ <;> simp
  · rfl

@[simp] theorem height_new (l r : Node V) (x : V) :
    (new l r x).height = Max.max l.height r.height + 1 := rfl

theorem balance_even {l r : Node V} (x : V) (hlr : l.height ≤ r.height + 2)
    (hrl : r.height ≤ l.height + 2) : balance l x r = new l r x := by
  unfold balance
  rw [if_neg (by omega), if_neg (by omega)]

theorem balance_left {l r : Node V} (hl : l.WellBalanced) (hr : r.WellBalanced) (x : V)
    (hlr : l.height = r.height + 3) :
    (balance l x r).WellBalanced ∧
      l.height ≤ (balance l x r).height ∧ (balance l x r).height ≤ l.height + 1 := by
  rcases l with _ | ⟨ll, y, h, lr⟩
  · simp only [height] at hlr
    omega
  obtain ⟨hll, hlr', hh, hd, hd'⟩ := hl.children
  have hheight : (node ll y h lr).height = h := rfl
  rw [hheight] at hlr ⊢
  unfold balance
  rw [if_pos (by omega)]
  dsimp only
  split_ifs with hge
  · have hnew := hlr'.new hr x (by omega) (by omega)
    exact ⟨hll.new hnew y (by simp only [height_new]; omega) (by simp only [height_new]; omega), by simp only [height_new]; omega, by simp only [height_new]; omega⟩
  · rcases lr with _ | ⟨lrl, z, h', lrr⟩
    · simp only [height] at hge
      omega
    obtain ⟨hlrl, hlrr, hh', he, he'⟩ := hlr'.children
    have hheight' : (node lrl z h' lrr).height = h' := rfl
    rw [hheight'] at hh hd hd' hge
    have hnll := hll.new hlrl y (by omega) (by omega)
    have hnlr := hlrr.new hr x (by omega) (by omega)
    exact ⟨hnll.new hnlr z (by simp only [height_new]; omega) (by simp only [height_new]; omega), by simp only [height_new]; omega, by simp only [height_new]; omega⟩

theorem balance_right {l r : Node V} (hl : l.WellBalanced) (hr : r.WellBalanced) (x : V)
    (hrl : r.height = l.height + 3) :
    (balance l x r).WellBalanced ∧
      r.height ≤ (balance l x r).height ∧ (balance l x r).height ≤ r.height + 1 := by
  rcases r with _ | ⟨rl, y, h, rr⟩
  · simp only [height] at hrl
    omega
  obtain ⟨hrl', hrr, hh, hd, hd'⟩ := hr.children
  have hheight : (node rl y h rr).height = h := rfl
  rw [hheight] at hrl ⊢
  unfold balance
  rw [if_neg (by omega), if_pos (by omega)]
  dsimp only
  split_ifs with hge
  · have hnew := hl.new hrl' x (by omega) (by omega)
    exact ⟨hnew.new hrr y (by simp only [height_new]; omega) (by simp only [height_new]; omega), by simp only [height_new]; omega, by simp only [height_new]; omega⟩
  · rcases rl with _ | ⟨rll, z, h', rlr⟩
    · simp only [height] at hge
      omega
    obtain ⟨hrll, hrlr, hh', he, he'⟩ := hrl'.children
    have hheight' : (node rll z h' rlr).height = h' := rfl
    rw [hheight'] at hh hd hd' hge
    have hnrl := hl.new hrll x (by omega) (by omega)
    have hnrr := hrlr.new hrr y (by omega) (by omega)
    exact ⟨hnrl.new hnrr z (by simp only [height_new]; omega) (by simp only [height_new]; omega), by simp only [height_new]; omega, by simp only [height_new]; omega⟩

/-- Two trees at most three apart are joined into one that is as high as the higher of them or
higher by one, and is higher by one where they need no rotation. -/
theorem balance_spec {l r : Node V} (hl : l.WellBalanced) (hr : r.WellBalanced) (x : V)
    (hlr : l.height ≤ r.height + 3) (hrl : r.height ≤ l.height + 3) :
    (balance l x r).WellBalanced ∧
      Max.max l.height r.height ≤ (balance l x r).height ∧
      (balance l x r).height ≤ Max.max l.height r.height + 1 ∧
      (l.height ≤ r.height + 2 → r.height ≤ l.height + 2 →
        (balance l x r).height = Max.max l.height r.height + 1) := by
  by_cases h : l.height ≤ r.height + 2
  · by_cases h' : r.height ≤ l.height + 2
    · rw [balance_even x h h']
      exact ⟨hl.new hr x h h', by rw [height_new]; omega, le_rfl, fun _ _ => rfl⟩
    · obtain ⟨hb, hlow, hhigh⟩ := balance_right hl hr x (by omega)
      exact ⟨hb, by omega, by omega, fun _ _ => by omega⟩
  · obtain ⟨hb, hlow, hhigh⟩ := balance_left hl hr x (by omega)
    exact ⟨hb, by omega, by omega, fun _ _ => by omega⟩

/-- A subtree that becomes higher by at most one makes its rebalanced parent higher by at most
one. -/
theorem balance_grown {l r l' r' : Node V} {x : V} {h : ℕ} (hn : (node l x h r).WellBalanced)
    (hl' : l'.WellBalanced) (hr' : r'.WellBalanced)
    (hl : l'.height = l.height ∨ l'.height = l.height + 1)
    (hr : r'.height = r.height ∨ r'.height = r.height + 1)
    (hone : l'.height = l.height ∨ r'.height = r.height) (y : V) :
    (balance l' y r').WellBalanced ∧
      ((balance l' y r').height = h ∨ (balance l' y r').height = h + 1) := by
  obtain ⟨-, -, hh, hlr, hrl⟩ := hn.children
  obtain ⟨hb, hlow, hhigh, heven⟩ := balance_spec hl' hr' y (by omega) (by omega)
  exact ⟨hb, by omega⟩

/-- A subtree that becomes lower by at most one makes its rebalanced parent lower by at most
one. -/
theorem balance_shrunk {l r l' r' : Node V} {x : V} {h : ℕ} (hn : (node l x h r).WellBalanced)
    (hl' : l'.WellBalanced) (hr' : r'.WellBalanced)
    (hl : l'.height = l.height ∨ l'.height + 1 = l.height)
    (hr : r'.height = r.height ∨ r'.height + 1 = r.height)
    (hone : l'.height = l.height ∨ r'.height = r.height) (y : V) :
    (balance l' y r').WellBalanced ∧
      ((balance l' y r').height = h ∨ (balance l' y r').height + 1 = h) := by
  obtain ⟨-, -, hh, hlr, hrl⟩ := hn.children
  obtain ⟨hb, hlow, hhigh, heven⟩ := balance_spec hl' hr' y (by omega) (by omega)
  exact ⟨hb, by omega⟩

/-! ### The updates keep the balance -/

theorem wellBalanced_single (v : V) : (new terminator terminator v).WellBalanced :=
  WellBalanced.new (l := terminator) (r := terminator) trivial trivial v (by simp) (by simp)

theorem popMin_balanced {n : Node V} (hn : n.WellBalanced) :
    n.popMin.2.WellBalanced ∧
      (n.popMin.2.height = n.height ∨ n.popMin.2.height + 1 = n.height) := by
  induction n with
  | terminator => exact ⟨trivial, .inl rfl⟩
  | node l x h r ihl _ =>
    obtain ⟨hl, hr, hh, hlr, hrl⟩ := hn.children
    rw [popMin]
    split_ifs with ht
    · rw [isTerminator_iff] at ht
      subst ht
      exact ⟨hr, .inr (by simp only [height] at hh ⊢; omega)⟩
    · obtain ⟨hl', hlh⟩ := ihl hl
      exact balance_shrunk hn hl' hr hlh (.inl rfl) (.inr rfl) x

theorem popMax_balanced {n : Node V} (hn : n.WellBalanced) :
    n.popMax.2.WellBalanced ∧
      (n.popMax.2.height = n.height ∨ n.popMax.2.height + 1 = n.height) := by
  induction n with
  | terminator => exact ⟨trivial, .inl rfl⟩
  | node l x h r _ ihr =>
    obtain ⟨hl, hr, hh, hlr, hrl⟩ := hn.children
    rw [popMax]
    split_ifs with ht
    · rw [isTerminator_iff] at ht
      subst ht
      exact ⟨hl, .inr (by simp only [height] at hh ⊢; omega)⟩
    · obtain ⟨hr', hrh⟩ := ihr hr
      exact balance_shrunk hn hl hr' (.inl rfl) hrh (.inl rfl) x

theorem popMin_values (n : Node V) : n.popMin.1.toList ++ n.popMin.2.toList = n.toList := by
  induction n with
  | terminator => rfl
  | node l x h r ihl _ =>
    rw [popMin]
    split_ifs with ht
    · rw [isTerminator_iff] at ht
      simp [ht]
    · rw [toList_balance, toList_node, ← ihl, List.append_assoc]

theorem popMax_values (n : Node V) : n.popMax.2.toList ++ n.popMax.1.toList = n.toList := by
  induction n with
  | terminator => rfl
  | node l x h r _ ihr =>
    rw [popMax]
    split_ifs with ht
    · rw [isTerminator_iff] at ht
      simp [ht]
    · rw [toList_balance, toList_node, ← ihr, List.append_assoc, List.cons_append]

theorem popMin_isSome {n : Node V} : n.popMin.1.isSome ↔ n ≠ terminator := by
  induction n with
  | terminator => simp [popMin]
  | node l x h r ihl _ =>
    rw [popMin]
    split_ifs with ht
    · simp
    · simpa [ihl] using ht

theorem popMax_isSome {n : Node V} : n.popMax.1.isSome ↔ n ≠ terminator := by
  induction n with
  | terminator => simp [popMax]
  | node l x h r _ ihr =>
    rw [popMax]
    split_ifs with ht
    · simp
    · simpa [ihr] using ht

section Keys

variable [LinearOrder K] (key : V → K)

theorem insert_balanced (v : V) {n : Node V} (hn : n.WellBalanced) :
    (n.insert key v).WellBalanced ∧
      ((n.insert key v).height = n.height ∨ (n.insert key v).height = n.height + 1) := by
  induction n with
  | terminator => exact ⟨wellBalanced_single v, .inr rfl⟩
  | node l x h r ihl ihr =>
    obtain ⟨hl, hr, -⟩ := hn.children
    rw [insert]
    split_ifs
    · obtain ⟨hl', hlh⟩ := ihl hl
      exact balance_grown hn hl' hr hlh (.inl rfl) (.inr rfl) x
    · obtain ⟨hr', hrh⟩ := ihr hr
      exact balance_grown hn hl hr' (.inl rfl) hrh (.inl rfl) x
    · exact ⟨hn, .inl rfl⟩

theorem replace_balanced (v : V) {n : Node V} (hn : n.WellBalanced) :
    (n.replace key v).WellBalanced ∧
      ((n.replace key v).height = n.height ∨ (n.replace key v).height = n.height + 1) := by
  induction n with
  | terminator => exact ⟨wellBalanced_single v, .inr rfl⟩
  | node l x h r ihl ihr =>
    obtain ⟨hl, hr, hh, hlr, hrl⟩ := hn.children
    rw [replace]
    split_ifs
    · obtain ⟨hl', hlh⟩ := ihl hl
      exact balance_grown hn hl' hr hlh (.inl rfl) (.inr rfl) x
    · obtain ⟨hr', hrh⟩ := ihr hr
      exact balance_grown hn hl hr' (.inl rfl) hrh (.inl rfl) x
    · exact ⟨hl.new hr v hlr hrl, .inl hh.symm⟩

theorem remove_balanced (k : K) {n : Node V} (hn : n.WellBalanced) :
    (n.remove key k).WellBalanced ∧
      ((n.remove key k).height = n.height ∨ (n.remove key k).height + 1 = n.height) := by
  induction n with
  | terminator => exact ⟨trivial, .inl rfl⟩
  | node l x h r ihl ihr =>
    obtain ⟨hl, hr, hh, hlr, hrl⟩ := hn.children
    rw [remove]
    split_ifs with _ _ htl htr
    · obtain ⟨hl', hlh⟩ := ihl hl
      exact balance_shrunk hn hl' hr hlh (.inl rfl) (.inr rfl) x
    · obtain ⟨hr', hrh⟩ := ihr hr
      exact balance_shrunk hn hl hr' (.inl rfl) hrh (.inl rfl) x
    · rw [isTerminator_iff] at htl
      subst htl
      exact ⟨hr, .inr (by simp only [height] at hh ⊢; omega)⟩
    · rw [isTerminator_iff] at htr
      subst htr
      exact ⟨hl, .inr (by simp only [height] at hh ⊢; omega)⟩
    · obtain ⟨min, hmin⟩ := Option.isSome_iff_exists.mp
        (popMin_isSome.mpr (by simpa using htr))
      obtain ⟨hr', hrh⟩ := popMin_balanced hr
      rcases hp : r.popMin with ⟨o, nr⟩
      rw [hp] at hmin hr' hrh
      subst hmin
      exact balance_shrunk hn hl hr' (.inl rfl) hrh (.inl rfl) min

/-! ### The updates of the values -/

/-- The values with strictly increasing keys from left to right. -/
def Ordered (n : Node V) : Prop := Sorted key n.toList

variable {key}

theorem Ordered.left {l r : Node V} {x : V} {h : ℕ} (hn : (node l x h r).Ordered key) :
    l.Ordered key := (sorted_node.mp hn).1.1

theorem Ordered.right {l r : Node V} {x : V} {h : ℕ} (hn : (node l x h r).Ordered key) :
    r.Ordered key := (sorted_node.mp hn).2.1

theorem toList_insert (v : V) {n : Node V} (hn : n.Ordered key) :
    (n.insert key v).toList = below key (key v) n.toList ++
      (get key n.toList (key v)).getD v :: above key (key v) n.toList := by
  induction n with
  | terminator => rfl
  | node l x h r ihl ihr =>
    rw [insert, toList_node]
    split_ifs with hlt hgt
    · rw [toList_balance, ihl hn.left, below_node_lt hn hlt, above_node_lt hn hlt,
        get_node_lt hn hlt]
      simp
    · rw [toList_balance, ihr hn.right, below_node_gt hn hgt, above_node_gt hn hgt,
        get_node_gt hn hgt]
      simp
    · have hv : key v = key x := le_antisymm (not_lt.mp hgt) (not_lt.mp hlt)
      rw [hv, below_node_eq hn, above_node_eq hn, get_node_eq hn]
      rfl

theorem toList_replace (v : V) {n : Node V} (hn : n.Ordered key) :
    (n.replace key v).toList =
      below key (key v) n.toList ++ v :: above key (key v) n.toList := by
  induction n with
  | terminator => rfl
  | node l x h r ihl ihr =>
    rw [replace, toList_node]
    split_ifs with hlt hgt
    · rw [toList_balance, ihl hn.left, below_node_lt hn hlt, above_node_lt hn hlt]
      simp
    · rw [toList_balance, ihr hn.right, below_node_gt hn hgt, above_node_gt hn hgt]
      simp
    · have hv : key v = key x := le_antisymm (not_lt.mp hgt) (not_lt.mp hlt)
      rw [hv, below_node_eq hn, above_node_eq hn]
      rfl

/-- A node with both children is replaced by the least value on its right. -/
theorem toList_remove (k : K) {n : Node V} (hn : n.Ordered key) :
    (n.remove key k).toList = without key k n.toList := by
  rw [without_eq hn]
  induction n with
  | terminator => rfl
  | node l x h r ihl ihr =>
    rw [remove, toList_node]
    split_ifs with hlt hgt htl htr
    · rw [toList_balance, ihl hn.left, below_node_lt hn hlt, above_node_lt hn hlt,
        List.append_assoc]
    · rw [toList_balance, ihr hn.right, below_node_gt hn hgt, above_node_gt hn hgt,
        List.append_assoc, List.cons_append]
    all_goals
      obtain rfl : k = key x := le_antisymm (not_lt.mp hgt) (not_lt.mp hlt)
      rw [below_node_eq hn, above_node_eq hn]
    · rw [isTerminator_iff] at htl
      simp [htl]
    · rw [isTerminator_iff] at htr
      simp [htr]
    · obtain ⟨min, hmin⟩ := Option.isSome_iff_exists.mp
        (popMin_isSome.mpr (by simpa using htr))
      have hvalues := popMin_values r
      rcases hp : r.popMin with ⟨o, nr⟩
      rw [hp] at hmin hvalues
      subst hmin
      rw [← hvalues]
      simp

/-! ### The lookups -/

theorem lookup_eq (k : K) {n : Node V} (hn : n.Ordered key) :
    n.lookup key k = get key n.toList k := by
  induction n with
  | terminator => rfl
  | node l x h r ihl ihr =>
    rw [lookup, toList_node]
    split_ifs with hlt hgt
    · rw [ihl hn.left, get_node_lt hn hlt]
    · rw [ihr hn.right, get_node_gt hn hgt]
    · obtain rfl : k = key x := le_antisymm (not_lt.mp hgt) (not_lt.mp hlt)
      rw [get_node_eq hn]

theorem count_eq (k : K) (n : Node V) :
    n.count key k = if (n.lookup key k).isSome then 1 else 0 := by
  induction n with
  | terminator => rfl
  | node l x h r ihl ihr =>
    rw [count, lookup]
    split_ifs with hlt hgt <;> simp_all

theorem lookup_previousLoop_eq (k : K) {n : Node V} (hn : n.Ordered key) (result : Option V) :
    n.lookup_previousLoop key k result = (atMost key k n.toList).getLast?.or result := by
  rw [atMost_eq hn]
  induction n generalizing result with
  | terminator => rfl
  | node l x h r ihl ihr =>
    rw [lookup_previousLoop, toList_node]
    split_ifs with hlt hgt
    · rw [ihl hn.left, below_node_lt hn hlt, get_node_lt hn hlt]
    · rw [ihr hn.right, below_node_gt hn hgt, get_node_gt hn hgt, List.append_assoc,
        List.cons_append, getLast_node, Option.or_assoc, Option.some_or]
    · obtain rfl : k = key x := le_antisymm (not_lt.mp hgt) (not_lt.mp hlt)
      rw [get_node_eq hn]
      simp

theorem lookup_previous_eq (k : K) {n : Node V} (hn : n.Ordered key) :
    n.lookup_previous key k = (atMost key k n.toList).getLast? := by
  rw [lookup_previous, lookup_previousLoop_eq k hn, Option.or_none]

end Keys

theorem min_eq (n : Node V) : n.min = n.toList.head? := by
  induction n with
  | terminator => rfl
  | node l x h r ihl _ =>
    rw [min, toList_node]
    split_ifs with ht
    · rw [isTerminator_iff] at ht
      simp [ht]
    · rw [ihl]
      cases l with
      | terminator => simp at ht
      | node ll y h' lr => simp

theorem max_eq (n : Node V) : n.max = n.toList.getLast? := by
  induction n with
  | terminator => rfl
  | node l x h r _ ihr =>
    rw [max, toList_node]
    split_ifs with ht
    · rw [isTerminator_iff] at ht
      simp [ht]
    · rw [ihr, getLast_node]
      cases r with
      | terminator => simp at ht
      | node rl y h' rr => rw [toList_node, getLast_node, Option.or_assoc, Option.some_or]

end Node

end ImmutableTree

end TaseVerifier
