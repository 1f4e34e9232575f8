import TaseVerifier.ADT.ImmutableTree

/-! The iterators of the search tree. An iterator holds the nodes on the way from the root to
its position, on a stack as long as the root is high, and stands at the end when the stack is
empty. A node on the stack is known by its place, the steps that lead to it from the root: no
two places of an ordered tree hold the same node, so the comparison of two pointers is the
comparison of their places. -/

namespace TaseVerifier

namespace ImmutableTree

open Library Library.SortedKeys

/-- The elements below `pos`, the last one first. -/
structure FixedStack (T : Type*) where
  max : ℕ
  elts : List T
  length_le : elts.length ≤ max

namespace FixedStack

variable {T : Type*}

def empty (max : ℕ) : FixedStack T := ⟨max, [], Nat.zero_le _⟩

/-- Writes past the array when the stack is full. -/
def push_back (s : FixedStack T) (elt : T) : Option (FixedStack T) :=
  if h : s.elts.length < s.max then some ⟨s.max, elt :: s.elts, h⟩ else none

/-- Pops for as long as `f` says. -/
def shrink (s : FixedStack T) (f : List T → List T) (hf : ∀ l, (f l).length ≤ l.length) :
    FixedStack T := ⟨s.max, f s.elts, (hf s.elts).trans s.length_le⟩

theorem push_back_eq {s : FixedStack T} (h : s.elts.length < s.max) (elt : T) :
    s.push_back elt = some ⟨s.max, elt :: s.elts, h⟩ := dif_pos h

end FixedStack

inductive Side where
  | left
  | right
deriving DecidableEq

/-- A node other than the terminator, with the steps to it from the root, the last one first. -/
structure Ref (V : Type*) where
  place : List Side
  left : Node V
  value : V
  right : Node V

structure Iterator (V : Type*) where
  root : Node V
  stack : FixedStack (Ref V)

namespace Iterator

variable {K V : Type*}

/-! ### The source's functions -/

/-- `for (; !n->isTerminator(); n=n->left) stack.push_back(n)`. -/
def pushLeft (place : List Side) : Node V → FixedStack (Ref V) → Option (FixedStack (Ref V))
  | .terminator, stack => some stack
  | .node left value _ right, stack => do
    let stack ← stack.push_back ⟨place, left, value, right⟩
    pushLeft (.left :: place) left stack

def pushRight (place : List Side) : Node V → FixedStack (Ref V) → Option (FixedStack (Ref V))
  | .terminator, stack => some stack
  | .node left value _ right, stack => do
    let stack ← stack.push_back ⟨place, left, value, right⟩
    pushRight (.right :: place) right stack

/-- Pops up to the first node whose left child is the one popped before it. -/
def climbLeft (prev : List Side) : List (Ref V) → List (Ref V)
  | [] => []
  | n :: rest => if prev = .left :: n.place then n :: rest else climbLeft n.place rest

def climbRight (prev : List Side) : List (Ref V) → List (Ref V)
  | [] => []
  | n :: rest => if prev = .right :: n.place then n :: rest else climbRight n.place rest

theorem length_climbLeft_le (prev : List Side) (l : List (Ref V)) :
    (climbLeft prev l).length ≤ l.length := by
  induction l generalizing prev with
  | nil => exact le_rfl
  | cons n rest ih =>
    rw [climbLeft]
    split_ifs
    · exact le_rfl
    · exact (ih _).trans (Nat.le_succ _)

theorem length_climbRight_le (prev : List Side) (l : List (Ref V)) :
    (climbRight prev l).length ≤ l.length := by
  induction l generalizing prev with
  | nil => exact le_rfl
  | cons n rest ih =>
    rw [climbRight]
    split_ifs
    · exact le_rfl
    · exact (ih _).trans (Nat.le_succ _)

/-- `iterator(root, true)`. -/
def begin (root : Node V) : Option (Iterator V) := do
  let stack ← pushLeft [] root (.empty root.height)
  pure ⟨root, stack⟩

/-- `iterator(root, false)`. -/
def end' (root : Node V) : Iterator V := ⟨root, .empty root.height⟩

/-- `operator*`, which reads before the array when the stack is empty. -/
def value (it : Iterator V) : Option V := it.stack.elts.head?.map Ref.value

/-- `operator==` compares the stacks. -/
def eq (a b : Iterator V) : Bool :=
  a.stack.elts.map Ref.place = b.stack.elts.map Ref.place

/-- `operator++` asserts that the stack is not empty. -/
def next (it : Iterator V) : Option (Iterator V) :=
  match it.stack.elts with
  | [] => none
  | n :: _ =>
    match n.right with
    | .terminator =>
      some ⟨it.root, it.stack.shrink (fun l => climbLeft n.place l.tail)
        fun l => (length_climbLeft_le _ _).trans (by simp)⟩
    | .node left value _ right => do
      let stack ← it.stack.push_back ⟨.right :: n.place, left, value, right⟩
      let stack ← pushLeft (.left :: .right :: n.place) left stack
      pure ⟨it.root, stack⟩

/-- `operator--`, from the end to the last value. -/
def prev (it : Iterator V) : Option (Iterator V) :=
  match it.stack.elts with
  | [] => do
    let stack ← pushRight [] it.root it.stack
    pure ⟨it.root, stack⟩
  | n :: _ =>
    match n.left with
    | .terminator =>
      some ⟨it.root, it.stack.shrink (fun l => climbRight n.place l.tail)
        fun l => (length_climbRight_le _ _).trans (by simp)⟩
    | .node left value _ right => do
      let stack ← it.stack.push_back ⟨.left :: n.place, left, value, right⟩
      let stack ← pushRight (.right :: .left :: n.place) right stack
      pure ⟨it.root, stack⟩

section Keys

variable [LinearOrder K] (key : V → K)

/-- The loop of `lower_bound`, and the step it makes when it ends below a smaller key. -/
def lower_boundLoop (k : K) (place : List Side) : Node V → Iterator V → Option (Iterator V)
  | .terminator, it =>
    match it.stack.elts with
    | [] => some it
    | last :: _ => if key last.value < k then it.next else some it
  | .node left value _ right, it => do
    let stack ← it.stack.push_back ⟨place, left, value, right⟩
    if k < key value then lower_boundLoop k (.left :: place) left ⟨it.root, stack⟩
    else if key value < k then lower_boundLoop k (.right :: place) right ⟨it.root, stack⟩
    else some ⟨it.root, stack⟩

def lower_bound (k : K) (root : Node V) : Option (Iterator V) :=
  lower_boundLoop key k [] root (end' root)

def upper_bound (k : K) (root : Node V) : Option (Iterator V) := do
  let it ← lower_bound key k root
  if it.eq (end' root) then pure it
  else
    let v ← it.value
    if k < key v then pure it else it.next

def find (k : K) (root : Node V) : Option (Iterator V) := do
  let it ← lower_bound key k root
  if it.eq (end' root) then pure (end' root)
  else
    let v ← it.value
    if k < key v then pure (end' root) else pure it

end Keys

/-! ### The way to a node -/

/-- The stack holds the nodes above `n`, and the steps lead through them to `n`. -/
inductive Leads (root : Node V) : List (Ref V) → List Side → Node V → Prop where
  | root : Leads root [] [] root
  | left {stack place l x h r} : Leads root stack place (.node l x h r) →
      Leads root (⟨place, l, x, r⟩ :: stack) (.left :: place) l
  | right {stack place l x h r} : Leads root stack place (.node l x h r) →
      Leads root (⟨place, l, x, r⟩ :: stack) (.right :: place) r

/-- The stack of an iterator at a node, or at the end. -/
inductive Stands (root : Node V) : List (Ref V) → Prop where
  | nil : Stands root []
  | node {stack place l x h r} : Leads root stack place (.node l x h r) →
      Stands root (⟨place, l, x, r⟩ :: stack)

/-- The values after those of the node at `place`. -/
def after (place : List Side) : List (Ref V) → List V
  | [] => []
  | n :: rest =>
    if place = .left :: n.place then n.value :: (n.right.toList ++ after n.place rest)
    else after n.place rest

/-- The values before those of the node at `place`. -/
def before (place : List Side) : List (Ref V) → List V
  | [] => []
  | n :: rest =>
    if place = .right :: n.place then before n.place rest ++ n.left.toList ++ [n.value]
    else before n.place rest

/-- The values from the one the stack stands at. -/
def remaining : List (Ref V) → List V
  | [] => []
  | n :: rest => n.value :: (n.right.toList ++ after n.place rest)

/-- The values up to the one the stack stands at. -/
def upTo : List (Ref V) → List V
  | [] => []
  | n :: rest => before n.place rest ++ n.left.toList ++ [n.value]

variable {root n l r : Node V} {x : V} {h : ℕ} {stack : List (Ref V)} {place : List Side}

theorem after_left : after (.left :: place) (⟨place, l, x, r⟩ :: stack) =
    x :: (r.toList ++ after place stack) := if_pos rfl

theorem after_right : after (.right :: place) (⟨place, l, x, r⟩ :: stack) = after place stack :=
  if_neg (by simp)

theorem before_left : before (.left :: place) (⟨place, l, x, r⟩ :: stack) = before place stack :=
  if_neg (by simp)

theorem before_right : before (.right :: place) (⟨place, l, x, r⟩ :: stack) =
    before place stack ++ l.toList ++ [x] := if_pos rfl

theorem Leads.toList_eq (hn : Leads root stack place n) :
    root.toList = before place stack ++ (n.toList ++ after place stack) := by
  induction hn with
  | root => simp [before, after]
  | left hn ih => rw [before_left, after_left, ih]; simp
  | right hn ih => rw [before_right, after_right, ih]; simp

/-- Every step down takes at least one from the depth. -/
theorem Leads.length_add_depth_le (hn : Leads root stack place n) :
    stack.length + n.depth ≤ root.depth := by
  induction hn with
  | root => simp
  | left hn ih =>
    simp only [Node.depth, List.length_cons] at ih ⊢
    omega
  | right hn ih =>
    simp only [Node.depth, List.length_cons] at ih ⊢
    omega

theorem Leads.stands (hn : Leads root stack place n) : Stands root stack := by
  cases hn with
  | root => exact .nil
  | left hn => exact .node hn
  | right hn => exact .node hn

theorem Stands.toList_eq {n : Ref V} (hs : Stands root (n :: stack)) :
    root.toList = before n.place stack ++ n.left.toList ++ remaining (n :: stack) := by
  cases hs with
  | node hn => rw [hn.toList_eq, Node.toList_node, remaining]; simp

/-! ### Climbing and going down -/

theorem remaining_climbLeft (place : List Side) (stack : List (Ref V)) :
    remaining (climbLeft place stack) = after place stack := by
  induction stack generalizing place with
  | nil => rfl
  | cons n rest ih =>
    rw [climbLeft, after]
    split_ifs
    · rfl
    · exact ih n.place

theorem upTo_climbRight (place : List Side) (stack : List (Ref V)) :
    upTo (climbRight place stack) = before place stack := by
  induction stack generalizing place with
  | nil => rfl
  | cons n rest ih =>
    rw [climbRight, before]
    split_ifs
    · rfl
    · exact ih n.place

theorem Leads.stands_climbLeft (hn : Leads root stack place n) (prev : List Side) :
    Stands root (climbLeft prev stack) := by
  induction hn generalizing prev with
  | root => exact .nil
  | left hn ih | right hn ih =>
    rw [climbLeft]
    split_ifs
    · exact .node hn
    · exact ih _

theorem Leads.stands_climbRight (hn : Leads root stack place n) (prev : List Side) :
    Stands root (climbRight prev stack) := by
  induction hn generalizing prev with
  | root => exact .nil
  | left hn ih | right hn ih =>
    rw [climbRight]
    split_ifs
    · exact .node hn
    · exact ih _

/-- What `pushLeft` leaves on a stack with enough room. -/
def leftSpine (place : List Side) : Node V → List (Ref V) → List (Ref V)
  | .terminator, stack => stack
  | .node l x _ r, stack => leftSpine (.left :: place) l (⟨place, l, x, r⟩ :: stack)

def rightSpine (place : List Side) : Node V → List (Ref V) → List (Ref V)
  | .terminator, stack => stack
  | .node l x _ r, stack => rightSpine (.right :: place) r (⟨place, l, x, r⟩ :: stack)

theorem pushLeft_eq (place : List Side) {n : Node V} {s : FixedStack (Ref V)}
    (hroom : s.elts.length + n.depth ≤ s.max) :
    ∃ s', pushLeft place n s = some s' ∧ s'.max = s.max ∧
      s'.elts = leftSpine place n s.elts := by
  induction n generalizing place s with
  | terminator => exact ⟨s, rfl, rfl, rfl⟩
  | node l x h r ihl _ =>
    simp only [Node.depth] at hroom
    have hpush := FixedStack.push_back_eq (s := s) (by omega) ⟨place, l, x, r⟩
    obtain ⟨s', hs', hmax, helts⟩ := ihl (.left :: place)
      (s := ⟨s.max, ⟨place, l, x, r⟩ :: s.elts, by simp only [List.length_cons]; omega⟩)
      (by simp only [List.length_cons]; omega)
    exact ⟨s', by rw [pushLeft, hpush]; exact hs', hmax, helts⟩

theorem pushRight_eq (place : List Side) {n : Node V} {s : FixedStack (Ref V)}
    (hroom : s.elts.length + n.depth ≤ s.max) :
    ∃ s', pushRight place n s = some s' ∧ s'.max = s.max ∧
      s'.elts = rightSpine place n s.elts := by
  induction n generalizing place s with
  | terminator => exact ⟨s, rfl, rfl, rfl⟩
  | node l x h r _ ihr =>
    simp only [Node.depth] at hroom
    have hpush := FixedStack.push_back_eq (s := s) (by omega) ⟨place, l, x, r⟩
    obtain ⟨s', hs', hmax, helts⟩ := ihr (.right :: place)
      (s := ⟨s.max, ⟨place, l, x, r⟩ :: s.elts, by simp only [List.length_cons]; omega⟩)
      (by simp only [List.length_cons]; omega)
    exact ⟨s', by rw [pushRight, hpush]; exact hs', hmax, helts⟩

theorem Leads.stands_leftSpine (hn : Leads root stack place n) :
    Stands root (leftSpine place n stack) := by
  induction n generalizing place stack with
  | terminator => exact hn.stands
  | node l x h r ihl _ => exact ihl hn.left

theorem Leads.stands_rightSpine (hn : Leads root stack place n) :
    Stands root (rightSpine place n stack) := by
  induction n generalizing place stack with
  | terminator => exact hn.stands
  | node l x h r _ ihr => exact ihr hn.right

theorem remaining_leftSpine (h : after place stack = remaining stack) :
    remaining (leftSpine place n stack) = n.toList ++ remaining stack := by
  induction n generalizing place stack with
  | terminator => rfl
  | node l x h r ihl _ => rw [leftSpine, ihl after_left, Node.toList_node, remaining, h]; simp

theorem upTo_rightSpine (h : before place stack = upTo stack) :
    upTo (rightSpine place n stack) = upTo stack ++ n.toList := by
  induction n generalizing place stack with
  | terminator => simp [rightSpine]
  | node l x h r _ ihr => rw [rightSpine, ihr before_right, Node.toList_node, upTo, h]; simp

/-! ### The positions of an iterator -/

/-- The iterator stands between the values `pre` and the values `suf` of a balanced tree. -/
structure At (root : Node V) (pre suf : List V) (it : Iterator V) : Prop where
  root_eq : it.root = root
  balanced : root.WellBalanced
  max_eq : it.stack.max = root.depth
  stands : Stands root it.stack.elts
  toList_eq : root.toList = pre ++ suf
  remaining_eq : remaining it.stack.elts = suf

variable {pre suf : List V} {v : V} {it : Iterator V}

theorem At.value (hit : At root pre suf it) : it.value = suf.head? := by
  rw [Iterator.value, ← hit.remaining_eq]
  cases it.stack.elts with
  | nil => rfl
  | cons n rest => rfl

theorem end_at (hroot : root.WellBalanced) : At root root.toList [] (end' root) :=
  ⟨rfl, hroot, hroot.height_eq, .nil, by simp, rfl⟩

theorem At.eq_end (hit : At root pre suf it) : it.eq (end' root) ↔ suf = [] := by
  rw [Iterator.eq, ← hit.remaining_eq]
  cases it.stack.elts with
  | nil => simp [end', FixedStack.empty, remaining]
  | cons n rest => simp [end', FixedStack.empty, remaining]

theorem begin_eq (hroot : root.WellBalanced) : ∃ it, begin root = some it ∧ it.root = root ∧
    it.stack.max = root.depth ∧ it.stack.elts = leftSpine [] root [] := by
  obtain ⟨s, hs, hmax, helts⟩ := pushLeft_eq [] (n := root) (s := .empty root.height)
    (by simp [FixedStack.empty, hroot.height_eq])
  exact ⟨⟨root, s⟩, by rw [begin, hs]; rfl, rfl, hmax.trans hroot.height_eq, helts⟩

theorem begin_at (hroot : root.WellBalanced) :
    ∃ it, begin root = some it ∧ At root [] root.toList it := by
  obtain ⟨it, hit, hr, hmax, helts⟩ := begin_eq hroot
  refine ⟨it, hit, hr, hroot, hmax, ?_, rfl, ?_⟩
  · rw [helts]
    exact Leads.root.stands_leftSpine
  · rw [helts]
    exact (remaining_leftSpine rfl).trans (List.append_nil _)

/-- From any position but the end, `operator++` goes on by one value and finds room on the
stack. -/
theorem At.next (hit : At root pre (v :: suf) it) :
    ∃ it', it.next = some it' ∧ At root (pre ++ [v]) suf it' := by
  obtain ⟨rfl, hroot, hmax, hst, hlist, hrem⟩ := hit
  obtain ⟨root, ⟨max, elts, hle⟩⟩ := it
  cases hst with
  | nil => simp [remaining] at hrem
  | @node rest place l x h r hn =>
    obtain ⟨rfl, rfl⟩ := List.cons_eq_cons.mp hrem
    rcases r with _ | ⟨rl, y, h', rr⟩
    · exact ⟨_, rfl, rfl, hroot, hmax, hn.stands_climbLeft _, by simp [hlist],
        remaining_climbLeft _ _⟩
    · have hroom := hn.right.length_add_depth_le
      obtain ⟨s, hs, hmax', helts⟩ := pushLeft_eq (.right :: place)
        (n := .node rl y h' rr) (s := ⟨max, ⟨place, l, x, .node rl y h' rr⟩ :: rest, hle⟩)
        (hroom.trans_eq hmax.symm)
      refine ⟨⟨root, s⟩, ?_, rfl, hroot, hmax'.trans hmax, ?_, by simp [hlist], ?_⟩
      · simp only [pushLeft] at hs
        simp only [Iterator.next]
        rw [← bind_assoc, hs]
        rfl
      · rw [helts]
        exact hn.right.stands_leftSpine
      · rw [helts, leftSpine, remaining_leftSpine after_left, remaining, after_right]
        simp

theorem Stands.remaining_of_upTo (hs : Stands root stack) (hup : upTo stack = pre ++ [v])
    (hlist : root.toList = pre ++ v :: suf) : remaining stack = v :: suf := by
  cases stack with
  | nil => simp [upTo] at hup
  | cons n rest =>
    obtain ⟨hpre, -⟩ := List.append_inj' hup rfl
    have hsplit := hs.toList_eq
    rw [hpre, hlist] at hsplit
    exact (List.append_cancel_left hsplit).symm

/-- From any position but the first, `operator--` goes back by one value. -/
theorem At.prev (hit : At root (pre ++ [v]) suf it) :
    ∃ it', it.prev = some it' ∧ At root pre (v :: suf) it' := by
  obtain ⟨rfl, hroot, hmax, hst, hlist, hrem⟩ := hit
  obtain ⟨root, ⟨max, elts, hle⟩⟩ := it
  rw [List.append_assoc, List.singleton_append] at hlist
  cases hst with
  | nil =>
    obtain rfl : suf = [] := hrem.symm
    obtain ⟨s, hs, hmax', helts⟩ := pushRight_eq [] (n := root) (s := ⟨max, [], hle⟩)
      (by simpa using hmax.ge)
    have hstands : Stands root s.elts := helts ▸ Leads.root.stands_rightSpine
    refine ⟨⟨root, s⟩, by simp only [Iterator.prev, hs]; rfl, rfl, hroot, hmax'.trans hmax,
      hstands, hlist, hstands.remaining_of_upTo ?_ hlist⟩
    rw [helts, upTo_rightSpine rfl]
    exact hlist
  | @node rest place l x h r hn =>
    have hpassed : before place rest ++ l.toList = pre ++ [v] := by
      have hsplit := (Stands.node hn).toList_eq
      rw [hlist, hrem] at hsplit
      exact (List.append_cancel_right (hsplit.symm.trans (by simp)))
    rcases l with _ | ⟨ll, y, h', lr⟩
    · have hstands := hn.stands_climbRight place
      refine ⟨_, rfl, rfl, hroot, hmax, hstands, hlist, hstands.remaining_of_upTo ?_ hlist⟩
      rw [upTo_climbRight, ← hpassed]
      simp
    · have hroom := hn.left.length_add_depth_le
      obtain ⟨s, hs, hmax', helts⟩ := pushRight_eq (.left :: place)
        (n := .node ll y h' lr) (s := ⟨max, ⟨place, .node ll y h' lr, x, r⟩ :: rest, hle⟩)
        (hroom.trans_eq hmax.symm)
      have hstands : Stands root s.elts := helts ▸ hn.left.stands_rightSpine
      refine ⟨⟨root, s⟩, ?_, rfl, hroot, hmax'.trans hmax, hstands, hlist,
        hstands.remaining_of_upTo ?_ hlist⟩
      · simp only [pushRight] at hs
        simp only [Iterator.prev]
        rw [← bind_assoc, hs]
        rfl
      · rw [helts, rightSpine, upTo_rightSpine before_right, upTo, before_left, ← hpassed]
        simp

/-! ### The searches -/

theorem Stands.eq_leftSpine {n : Ref V} (hs : Stands root (n :: stack)) :
    before n.place stack ++ n.left.toList = [] → n :: stack = leftSpine [] root [] := by
  -- every step to the right has a value before it
  have hspine {stack place m} (hm : Leads root stack place m) (hb : before place stack = []) :
      leftSpine place m stack = leftSpine [] root [] := by
    induction hm with
    | root => rfl
    | left hm ih => rw [before_left] at hb; exact ih hb
    | right hm ih => rw [before_right] at hb; simp at hb
  intro hnil
  obtain ⟨hb, hl⟩ := List.append_eq_nil_iff.mp hnil
  cases hs with
  | @node _ place l x h r hn =>
    have hterm : l = .terminator := by cases l <;> simp_all
    subst hterm
    exact hspine hn hb

theorem Leads.unique {stack' : List (Ref V)} {n' : Node V} (hn : Leads root stack place n)
    (hn' : Leads root stack' place n') : stack = stack' ∧ n = n' := by
  induction hn generalizing stack' n' with
  | root => cases hn'; exact ⟨rfl, rfl⟩
  | left hn ih =>
    cases hn' with
    | left hn' =>
      obtain ⟨rfl, hnode⟩ := ih hn'
      cases hnode
      exact ⟨rfl, rfl⟩
  | right hn ih =>
    cases hn' with
    | right hn' =>
      obtain ⟨rfl, hnode⟩ := ih hn'
      cases hnode
      exact ⟨rfl, rfl⟩

/-- A node is known by its place. -/
theorem Stands.eq_of_place {stack' : List (Ref V)} (hs : Stands root stack)
    (hs' : Stands root stack') (h : stack.map Ref.place = stack'.map Ref.place) :
    stack = stack' := by
  cases hs with
  | nil => exact (List.map_eq_nil_iff.mp h.symm).symm
  | node hn =>
    cases hs' with
    | nil => simp at h
    | node hn' =>
      obtain ⟨rfl, -⟩ := List.cons_eq_cons.mp h
      obtain ⟨rfl, hnode⟩ := hn.unique hn'
      cases hnode
      rfl

theorem At.eq_begin {start : Iterator V} (hit : At root pre suf it)
    (hs : begin root = some start) : it.eq start ↔ pre = [] := by
  obtain ⟨_, hs', -, -, helts⟩ := begin_eq hit.balanced
  obtain ⟨_, hs'', hstart⟩ := begin_at hit.balanced
  cases hs.symm.trans hs'
  cases hs.symm.trans hs''
  rw [Iterator.eq, decide_eq_true_iff]
  constructor
  · intro heq
    have hrem := hit.remaining_eq
    rw [hit.stands.eq_of_place hstart.stands heq, hstart.remaining_eq, hit.toList_eq] at hrem
    exact List.append_left_eq_self.mp hrem
  · rintro rfl
    have hst := hit.stands
    have hrem := hit.remaining_eq
    cases hstack : it.stack.elts with
    | nil =>
      rw [hstack] at hrem
      have hnil : root.toList = [] := hit.toList_eq.trans hrem.symm
      have hterm : root = .terminator := by cases root <;> simp_all
      rw [helts, hterm]
      rfl
    | cons n rest =>
      rw [hstack] at hst hrem
      have hsplit := hst.toList_eq
      rw [hrem, hit.toList_eq, List.nil_append] at hsplit
      rw [hst.eq_leftSpine (List.append_left_eq_self.mp hsplit.symm), helts]

section Keys

variable [LinearOrder K] {key : V → K}

theorem lower_boundLoop_at (k : K) (hroot : root.WellBalanced) (hord : n.Ordered key)
    (hn : Leads root stack place n) {s : FixedStack (Ref V)} (helts : s.elts = stack)
    (hmax : s.max = root.depth)
    (hside : ∀ last rest, stack = last :: rest →
      place = (if key last.value < k then .right else .left) :: last.place) :
    ∃ it, lower_boundLoop key k place n ⟨root, s⟩ = some it ∧
      At root (before place stack ++ below key k n.toList)
        (atLeast key k n.toList ++ after place stack) it := by
  induction n generalizing stack place s with
  | terminator =>
    have hlist := hn.toList_eq
    cases stack with
    | nil =>
      refine ⟨⟨root, s⟩, by simp only [lower_boundLoop, helts], rfl, hroot, hmax,
        helts ▸ .nil, ?_, by rw [helts]; rfl⟩
      simpa [below, atLeast] using hlist
    | cons last rest =>
      have hplace := hside last rest rfl
      have hat : At root (before last.place rest ++ last.left.toList)
          (remaining (last :: rest)) ⟨root, s⟩ :=
        ⟨rfl, hroot, hmax, helts ▸ hn.stands, hn.stands.toList_eq, by rw [helts]⟩
      simp only [lower_boundLoop, helts]
      split_ifs at hplace ⊢ with hlt
      · subst hplace
        cases hn with
        | right hn =>
          obtain ⟨it', hnext, hat'⟩ := hat.next
          refine ⟨it', hnext, ?_⟩
          simpa [before_right, after_right, below, atLeast] using hat'
      · subst hplace
        cases hn with
        | left hn =>
          refine ⟨_, rfl, ?_⟩
          simpa [before_left, after_left, below, atLeast, remaining] using hat
  | node l x h r ihl ihr =>
    have hroom := hn.length_add_depth_le
    simp only [Node.depth] at hroom
    have hpush := FixedStack.push_back_eq (s := s) (by rw [helts]; omega) ⟨place, l, x, r⟩
    simp only [lower_boundLoop, hpush, Option.bind_eq_bind, Option.bind_some]
    rw [Node.toList_node]
    split_ifs with hlt hgt
    · obtain ⟨it, hit, hat⟩ := ihl hord.left hn.left (s := ⟨s.max, _ :: s.elts, _⟩)
        (congrArg (List.cons _) helts) hmax (by rintro last rest ⟨⟩; rw [if_neg hlt.not_gt])
      refine ⟨it, hit, ?_⟩
      rw [below_node_lt hord hlt, atLeast_node_lt hord hlt]
      simpa [before_left, after_left] using hat
    · obtain ⟨it, hit, hat⟩ := ihr hord.right hn.right (s := ⟨s.max, _ :: s.elts, _⟩)
        (congrArg (List.cons _) helts) hmax (by rintro last rest ⟨⟩; rw [if_pos hgt])
      refine ⟨it, hit, ?_⟩
      rw [below_node_gt hord hgt, atLeast_node_gt hord hgt]
      simpa [before_right, after_right] using hat
    · obtain rfl : k = key x := le_antisymm (not_lt.mp hgt) (not_lt.mp hlt)
      rw [below_node_eq hord, atLeast_node_eq hord]
      refine ⟨_, rfl, rfl, hroot, hmax, ?_, ?_, ?_⟩
      · simp only [helts]; exact .node hn
      · simpa using hn.toList_eq
      · simp only [helts, remaining, List.cons_append]

theorem lower_bound_at (k : K) (hroot : root.WellBalanced) (hord : root.Ordered key) :
    ∃ it, lower_bound key k root = some it ∧
      At root (below key k root.toList) (atLeast key k root.toList) it := by
  obtain ⟨it, hit, hat⟩ := lower_boundLoop_at k hroot hord .root (s := .empty root.height) rfl
    hroot.height_eq (by simp)
  exact ⟨it, hit, by simpa [before, after] using hat⟩

theorem upper_bound_at (k : K) (hroot : root.WellBalanced) (hord : root.Ordered key) :
    ∃ it, upper_bound key k root = some it ∧
      At root (atMost key k root.toList) (above key k root.toList) it := by
  obtain ⟨it, hit, hat⟩ := lower_bound_at k hroot hord
  rw [atLeast_eq hord] at hat
  rw [atMost_eq hord]
  simp only [upper_bound, hit, Option.bind_eq_bind, Option.bind_some, hat.eq_end, hat.value]
  cases hget : get key root.toList k with
  | none =>
    rw [hget, Option.toList_none, List.nil_append] at hat
    rw [Option.toList_none, List.nil_append, List.append_nil]
    cases habove : above key k root.toList with
    | nil => exact ⟨it, rfl, habove ▸ hat⟩
    | cons v rest =>
      have hv : v ∈ above key k root.toList := by simp [habove]
      have hlt : k < key v := by simpa using (List.mem_filter.mp hv).2
      exact ⟨it, by simp [hlt], habove ▸ hat⟩
  | some v =>
    rw [hget] at hat
    obtain ⟨it', hnext, hat'⟩ := At.next hat
    have hv := ((mem_get hord).mp hget).2
    exact ⟨it', by simp [hv, hnext], hat'⟩

/-- The entry with the key, or the end. -/
theorem find_at (k : K) (hroot : root.WellBalanced) (hord : root.Ordered key) :
    ∃ it, find key k root = some it ∧ it.value = get key root.toList k := by
  obtain ⟨it, hit, hat⟩ := lower_bound_at k hroot hord
  rw [atLeast_eq hord] at hat
  simp only [find, hit, Option.bind_eq_bind, Option.bind_some, hat.eq_end, hat.value]
  cases hget : get key root.toList k with
  | none =>
    rw [hget, Option.toList_none, List.nil_append] at hat
    rw [Option.toList_none, List.nil_append]
    refine ⟨end' root, ?_, (end_at hroot).value⟩
    cases habove : above key k root.toList with
    | nil => rfl
    | cons v rest =>
      have hv : v ∈ above key k root.toList := by simp [habove]
      have hlt : k < key v := by simpa using (List.mem_filter.mp hv).2
      simp [hlt]
  | some v =>
    have hv := ((mem_get hord).mp hget).2
    refine ⟨it, by simp [hv], ?_⟩
    rw [hat.value, hget]
    rfl

end Keys

/-! ### Iteration -/

/-- The values that `for (; it != end; ++it)` visits in at most `fuel` steps. -/
def walk : ℕ → Iterator V → Option (List V)
  | 0, it => if it.eq (end' it.root) then some [] else none
  | fuel + 1, it =>
    if it.eq (end' it.root) then some []
    else do
      let v ← it.value
      let it ← it.next
      let rest ← walk fuel it
      pure (v :: rest)

theorem At.walk (hit : At root pre suf it) {fuel : ℕ} (hfuel : suf.length ≤ fuel) :
    it.walk fuel = some suf := by
  induction suf generalizing it pre fuel with
  | nil =>
    have hend : it.eq (end' it.root) := hit.root_eq ▸ hit.eq_end.mpr rfl
    cases fuel <;> simp [Iterator.walk, hend]
  | cons v suf ih =>
    obtain ⟨fuel, rfl⟩ := Nat.exists_eq_succ_of_ne_zero (n := fuel) (by rintro rfl; simp at hfuel)
    have hend : ¬it.eq (end' it.root) := by rw [hit.root_eq, hit.eq_end]; simp
    obtain ⟨it', hnext, hat'⟩ := hit.next
    rw [Iterator.walk, if_neg hend, hit.value, hnext]
    simp [ih hat' (Nat.le_of_succ_le_succ hfuel)]

end Iterator

end ImmutableTree

end TaseVerifier
