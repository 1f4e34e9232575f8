import TaseVerifier.Expr.Compare

/-! `Expr::compare` on objects in memory, with its memo of pairs known to be equal. The
memo is one static set. The comparison of an update list calls the outermost
`compare` again on indices and values; those calls start with the pairs entered so far
and clear the set when they return. -/

namespace TaseVerifier

/-- The update list whose nodes start at a pointer, null where only the root is left. -/
inductive NodesAt {Obj Node : Type} (expr : Obj → Expr) (index value : Node → Obj)
    (next : Node → Option Node) : Option Node → UpdateList → Prop
  | root (x : KleeArray) : NodesAt expr index value next none (.root x)
  | node (n : Node) (u : UpdateList) : NodesAt expr index value next (next n) u →
    NodesAt expr index value next (some n) (.node (expr (index n)) (expr (value n)) u)

/-- The objects of expressions and update nodes, with the addresses of the former. Any
number of objects may stand for one expression, and share kids and nodes. -/
structure ExprHeap (M : ExprMemory) (Obj Node : Type) where
  address : Obj → ℕ
  expr : Obj → Expr
  getKids : Obj → List Obj
  head : Obj → Option Node
  index : Node → Obj
  value : Node → Obj
  next : Node → Option Node
  getKids_expr : ∀ a, (getKids a).map expr = (expr a).kids
  head_nodes : ∀ a u i, expr a = .read u i → NodesAt expr index value next (head a) u

namespace ExprHeap

/-- The first update of a list, with the list after it. -/
def firstNode : UpdateList → Option (Expr × Expr × UpdateList)
  | .root _ => none
  | .node i v next => some (i, v, next)

theorem firstNode_nodes (u : UpdateList) :
    NodesAt id (·.1) (·.2.1) (fun n => firstNode n.2.2) (firstNode u) u := by
  refine (Expr.kids_induction (P := fun _ => True) (Q := fun u =>
    NodesAt id (·.1) (·.2.1) (fun n => firstNode n.2.2) (firstNode u) u) ?_ ?_ ?_ ?_).2 u
  · exact fun _ _ _ _ => trivial
  · exact fun _ _ _ => trivial
  · exact fun x => .root x
  · exact fun i v next _ _ ih => .node (i, v, next) next ih

/-- The nodes of the update list of a read. -/
def readNodes : Expr → Option (Expr × Expr × UpdateList)
  | .read u _ => firstNode u
  | _ => none

/-- The heap with one object for each expression. -/
instance (M : ExprMemory) : Inhabited (ExprHeap M Expr (Expr × Expr × UpdateList)) where
  default :=
    { address := Expr.weight
      expr := id
      getKids := Expr.kids
      head := readNodes
      index := (·.1)
      value := (·.2.1)
      next := fun n => firstNode n.2.2
      getKids_expr := fun a => List.map_id _
      head_nodes := by
        rintro _ u i rfl
        exact firstNode_nodes u }

variable {M : ExprMemory} {Obj Node : Type} [DecidableEq Obj] [DecidableEq Node]
  (H : ExprHeap M Obj Node)

/-- `ExprEquivSet`. -/
abbrev Equivs (Obj : Type) := List (Obj × Obj)

/-- The pair of two objects with the lower address first. -/
def pair (a b : Obj) : Obj × Obj := if H.address a < H.address b then (a, b) else (b, a)

/-- The loop over the kids. -/
def compareKids (compare : Obj → Obj → Equivs Obj → Option (Ordering × Equivs Obj)) :
    List Obj → List Obj → Equivs Obj → Option (Ordering × Equivs Obj)
  | a :: as, b :: bs, equivs => do
    let (res, equivs) ← compare a b equivs
    if res = .eq then compareKids compare as bs equivs else some (res, equivs)
  | _, _, equivs => some (.eq, equivs)

/-- `UpdateNode::compare`. -/
def compareNode (compare : Obj → Obj → Equivs Obj → Option (Ordering × Equivs Obj))
    (x y : Node) (equivs : Equivs Obj) : Option (Ordering × Equivs Obj) := do
  let (res, equivs) ← compare (H.index x) (H.index y) equivs
  if res = .eq then compare (H.value x) (H.value y) equivs else some (res, equivs)

/-- The loop of `UpdateList::compare`, for lists of so many nodes. -/
def compareNodes (compare : Obj → Obj → Equivs Obj → Option (Ordering × Equivs Obj)) :
    ℕ → Option Node → Option Node → Equivs Obj → Option (Ordering × Equivs Obj)
  | n + 1, some x, some y, equivs =>
    -- shared list structure
    if x = y then some (.eq, equivs)
    else do
      let (res, equivs) ← H.compareNode compare x y equivs
      if res = .eq then compareNodes compare n (H.next x) (H.next y) equivs
      else some (res, equivs)
  | 0, some _, some _, _ => none
  | _, _, _, equivs => some (.eq, equivs)

/-- The virtual `compareContents`; for a read it is `UpdateList::compare`. -/
def compareContents (compare : Obj → Obj → Equivs Obj → Option (Ordering × Equivs Obj))
    (a b : Obj) (equivs : Equivs Obj) : Option (Ordering × Equivs Obj) :=
  match H.expr a, H.expr b with
  | .read u _, .read v _ =>
    match M.compareRoot u v with
    | .eq => H.compareNodes compare u.getSize (H.head a) (H.head b) equivs
    | res => some (res, equivs)
  | e, e' => some (e.compareContents e', equivs)

/-- The outermost call clears the set when it is done. -/
def clearing (compare : Obj → Obj → Equivs Obj → Option (Ordering × Equivs Obj))
    (a b : Obj) (equivs : Equivs Obj) : Option (Ordering × Equivs Obj) :=
  (compare a b equivs).map fun r => (r.1, [])

/-- `compare(b, equivs)`, to the depth `n`. -/
def compare : ℕ → Obj → Obj → Equivs Obj → Option (Ordering × Equivs Obj)
  | 0, _, _, _ => none
  | n + 1, a, b, equivs =>
    if a = b then some (.eq, equivs)
    else if H.pair a b ∈ equivs then some (.eq, equivs)
    else
      match M.compareHead (H.expr a) (H.expr b) with
      | .eq => do
        let (res, equivs) ← H.compareContents (clearing (compare n)) a b equivs
        if res = .eq then
          let (res, equivs) ← compareKids (compare n) (H.getKids a) (H.getKids b) equivs
          if res = .eq then some (.eq, H.pair a b :: equivs) else some (res, equivs)
        else some (res, equivs)
      | res => some (res, equivs)

/-- The pairs in the set stand for equal expressions. -/
def Valid (equivs : Equivs Obj) : Prop := ∀ p ∈ equivs, H.expr p.1 = H.expr p.2

/-- A call returns the order of the expressions, and what it leaves in the set is valid. -/
def Returns (o : Ordering) (r : Option (Ordering × Equivs Obj)) : Prop :=
  ∃ equivs, r = some (o, equivs) ∧ H.Valid equivs

section Returns

omit [DecidableEq Obj] [DecidableEq Node]

variable {H} {o o' : Ordering} {r : Option (Ordering × Equivs Obj)}

theorem Valid.expr_eq {equivs : Equivs Obj} (h : H.Valid equivs) {a b : Obj}
    (hmem : H.pair a b ∈ equivs) : H.expr a = H.expr b := by
  have hpair := h _ hmem
  unfold pair at hpair
  split_ifs at hpair
  · exact hpair
  · exact hpair.symm

theorem Valid.pair_cons {equivs : Equivs Obj} (h : H.Valid equivs) {a b : Obj}
    (heq : H.expr a = H.expr b) : H.Valid (H.pair a b :: equivs) := by
  refine List.forall_mem_cons.mpr ⟨?_, h⟩
  unfold pair
  split_ifs
  · exact heq
  · exact heq.symm

theorem Returns.of_valid {equivs : Equivs Obj} (h : H.Valid equivs) :
    H.Returns o (some (o, equivs)) := ⟨equivs, rfl, h⟩

/-- The second comparison is made when the first finds nothing. -/
theorem Returns.andThen (h : H.Returns o r) {f : Equivs Obj → Option (Ordering × Equivs Obj)}
    (hf : o = .eq → ∀ equivs, H.Valid equivs → H.Returns o' (f equivs)) :
    H.Returns (o.then o') (r.bind fun p => if p.1 = .eq then f p.2 else some (p.1, p.2)) := by
  obtain ⟨equivs, rfl, hvalid⟩ := h
  rw [Option.bind_some]
  cases o with
  | eq => exact hf rfl equivs hvalid
  | lt => exact ⟨equivs, rfl, hvalid⟩
  | gt => exact ⟨equivs, rfl, hvalid⟩

end Returns

end ExprHeap

namespace ExprMemory

variable {M : ExprMemory}

/-- The kids are compared from first to last. -/
def orderKids (M : ExprMemory) : List Expr → List Expr → Ordering
  | a :: as, b :: bs => (M.order a b).then (orderKids M as bs)
  | _, _ => .eq

/-- The order of what `compareContents` compares. -/
def orderContents (M : ExprMemory) (a b : Expr) : Ordering :=
  match a, b with
  | .read u _, .read v _ => (M.compareRoot u v).then (M.orderNodes u v)
  | a, b => a.compareContents b

theorem order_eq_kids {a b : Expr} (h : a.SameKind b) :
    M.order a b =
      (M.compareHead a b).then ((M.orderContents a b).then (M.orderKids a.kids b.kids)) := by
  unfold order
  cases h <;> simp [orderContents, orderKids, Expr.kids, Expr.compareContents]

end ExprMemory

namespace ExprHeap

open ExprMemory

variable {M : ExprMemory} {Obj Node : Type} [DecidableEq Obj] [DecidableEq Node]
  {H : ExprHeap M Obj Node}

/-- A comparison of objects that is right about the objects `as`. -/
def RightOn (H : ExprHeap M Obj Node) (as : Obj → Prop)
    (compare : Obj → Obj → Equivs Obj → Option (Ordering × Equivs Obj)) : Prop :=
  ∀ a, as a → ∀ b equivs, H.Valid equivs →
    H.Returns (M.order (H.expr a) (H.expr b)) (compare a b equivs)

omit [DecidableEq Obj] [DecidableEq Node] in
theorem RightOn.clearing {as : Obj → Prop}
    {compare : Obj → Obj → Equivs Obj → Option (Ordering × Equivs Obj)}
    (h : H.RightOn as compare) : H.RightOn as (clearing compare) := by
  intro a ha b equivs hvalid
  obtain ⟨equivs', he, -⟩ := h a ha b equivs hvalid
  exact ⟨[], by rw [ExprHeap.clearing, he]; rfl, nofun⟩

omit [DecidableEq Obj] [DecidableEq Node] in
theorem compareKids_returns {compare : Obj → Obj → Equivs Obj → Option (Ordering × Equivs Obj)}
    {as : List Obj} (h : H.RightOn (· ∈ as) compare) (bs : List Obj) {equivs : Equivs Obj}
    (hvalid : H.Valid equivs) :
    H.Returns (M.orderKids (as.map H.expr) (bs.map H.expr)) (compareKids compare as bs equivs) := by
  induction as generalizing bs equivs with
  | nil => exact .of_valid hvalid
  | cons a as ih =>
    cases bs with
    | nil => exact .of_valid hvalid
    | cons b bs =>
      have hfirst := h a List.mem_cons_self b equivs hvalid
      have hrest : H.RightOn (· ∈ as) compare := fun a ha => h a (List.mem_cons_of_mem _ ha)
      exact hfirst.andThen fun _ equivs hvalid => ih hrest bs hvalid

omit [DecidableEq Obj] [DecidableEq Node] in
theorem compareNode_returns {compare : Obj → Obj → Equivs Obj → Option (Ordering × Equivs Obj)}
    {x y : Node} (h : H.RightOn (fun a => a = H.index x ∨ a = H.value x) compare)
    {equivs : Equivs Obj} (hvalid : H.Valid equivs) :
    H.Returns ((M.order (H.expr (H.index x)) (H.expr (H.index y))).then
      (M.order (H.expr (H.value x)) (H.expr (H.value y)))) (H.compareNode compare x y equivs) :=
  (h _ (.inl rfl) _ equivs hvalid).andThen fun _ equivs hvalid => h _ (.inr rfl) _ equivs hvalid

abbrev NodesFrom (H : ExprHeap M Obj Node) : Option Node → UpdateList → Prop :=
  NodesAt H.expr H.index H.value H.next

omit [DecidableEq Obj] [DecidableEq Node] in
/-- A shared node has the same updates after it. -/
theorem NodesFrom.unique {p : Option Node} {u v : UpdateList} (hu : H.NodesFrom p u)
    (hv : H.NodesFrom p v) (harray : u.array = v.array) : u = v := by
  induction hu generalizing v with
  | root x =>
    cases hv with
    | root y => exact congrArg _ harray
  | node n u _ ih =>
    cases hv with
    | node _ v hv => rw [ih hv harray]

omit [DecidableEq Obj] in
theorem compareNodes_returns {compare : Obj → Obj → Equivs Obj → Option (Ordering × Equivs Obj)}
    {p q : Option Node} {u v : UpdateList} (hu : H.NodesFrom p u) (hv : H.NodesFrom q v)
    (harray : u.array = v.array) (hsize : u.getSize = v.getSize)
    (h : H.RightOn (fun a => sizeOf (H.expr a) < sizeOf u) compare) {equivs : Equivs Obj}
    (hvalid : H.Valid equivs) :
    H.Returns (M.orderNodes u v) (H.compareNodes compare u.getSize p q equivs) := by
  induction hu generalizing q v equivs with
  | root x =>
    cases hv with
    | root y => exact .of_valid hvalid
    | node => cases hsize
  | node n u hu ih =>
    cases hv with
    | root => cases hsize
    | node m v hv =>
      simp only [UpdateList.getSize, compareNodes]
      split_ifs with hnm
      · subst hnm
        have huv := NodesFrom.unique hu hv harray
        rw [(orderNodes_eq_iff harray hsize).mpr (by rw [huv])]
        exact .of_valid hvalid
      · have hnode : H.RightOn (fun a => a = H.index n ∨ a = H.value n) compare := by
          intro a ha
          refine h a ?_
          rcases ha with rfl | rfl <;> simp only [UpdateList.node.sizeOf_spec] <;> omega
        have hrest : H.RightOn (fun a => sizeOf (H.expr a) < sizeOf u) compare := fun a ha =>
          h a (ha.trans (by simp only [UpdateList.node.sizeOf_spec]; omega))
        exact (compareNode_returns hnode hvalid).andThen fun _ equivs hvalid =>
          ih hv harray (Nat.succ.inj hsize) hrest hvalid

omit [DecidableEq Obj] in
theorem compareContents_returns
    {compare : Obj → Obj → Equivs Obj → Option (Ordering × Equivs Obj)} {a b : Obj}
    (h : H.RightOn (fun k => sizeOf (H.expr k) < sizeOf (H.expr a)) compare)
    {equivs : Equivs Obj} (hvalid : H.Valid equivs) :
    H.Returns (M.orderContents (H.expr a) (H.expr b)) (H.compareContents compare a b equivs) := by
  unfold compareContents orderContents
  split
  next u i v j ha hb =>
    cases hroot : M.compareRoot u v with
    | eq =>
      obtain ⟨harray, hsize⟩ := (compareRoot_eq_iff u v).mp hroot
      have hless : H.RightOn (fun k => sizeOf (H.expr k) < sizeOf u) compare := by
        refine fun k hk => h k (hk.trans ?_)
        rw [ha]
        simp
        omega
      exact compareNodes_returns (H.head_nodes a u i ha) (H.head_nodes b v j hb) harray hsize
        hless hvalid
    | lt => exact .of_valid hvalid
    | gt => exact .of_valid hvalid
  next => exact .of_valid hvalid

theorem sizeOf_kids {e k : Expr} (h : k ∈ e.kids) : sizeOf k < sizeOf e := by
  cases e <;> simp only [Expr.kids, List.mem_cons, List.not_mem_nil, or_false] at h <;>
    rcases h with rfl | rfl | rfl <;> simp <;> omega

/-- To a depth of at least the size of the expression the comparison is right, whatever
valid pairs the set holds. -/
theorem compare_returns (n : ℕ) :
    H.RightOn (fun a => sizeOf (H.expr a) ≤ n) (H.compare n) := by
  induction n with
  | zero =>
    intro a ha
    exfalso
    revert ha
    cases H.expr a <;> simp
  | succ n ih =>
    intro a ha b equivs hvalid
    unfold compare
    split_ifs with hab hmem
    · rw [hab, (order_eq_iff _ _).mpr rfl]
      exact .of_valid hvalid
    · rw [(order_eq_iff _ _).mpr (hvalid.expr_eq hmem)]
      exact .of_valid hvalid
    · cases hhead : M.compareHead (H.expr a) (H.expr b) with
      | eq =>
        have horder := order_eq_kids (M := M) (sameKind_of_compareHead hhead)
        rw [hhead, Ordering.eq_then] at horder
        have hbelow : H.RightOn (fun k => sizeOf (H.expr k) < sizeOf (H.expr a)) (H.compare n) :=
          fun k hk => ih k (by omega)
        have hkids : H.RightOn (· ∈ H.getKids a) (H.compare n) := by
          refine fun k hk => hbelow k (sizeOf_kids ?_)
          rw [← H.getKids_expr a]
          exact List.mem_map_of_mem hk
        rw [horder]
        refine (compareContents_returns (b := b) hbelow.clearing hvalid).andThen
          (f := fun equivs =>
            (compareKids (H.compare n) (H.getKids a) (H.getKids b) equivs).bind fun p =>
              if p.1 = .eq then some (.eq, H.pair a b :: p.2) else some (p.1, p.2))
          fun hc equivs hvalid => ?_
        have hloop := compareKids_returns hkids (H.getKids b) hvalid
        rw [H.getKids_expr, H.getKids_expr] at hloop
        rw [← Ordering.then_eq (o := M.orderKids (H.expr a).kids (H.expr b).kids)]
        refine hloop.andThen (f := fun equivs => some (.eq, H.pair a b :: equivs))
          fun hk equivs hvalid => .of_valid (hvalid.pair_cons ?_)
        rw [← order_eq_iff (M := M), horder, hc, hk]
        rfl
      | lt =>
        unfold order
        rw [hhead]
        exact .of_valid hvalid
      | gt =>
        unfold order
        rw [hhead]
        exact .of_valid hvalid

/-- The order of expressions is total, equality in it is equality of the expressions and
gives equal hashes, and `compare` returns it on any two objects that stand for them,
whatever valid pairs the set holds. -/
theorem compare_lawful (M : ExprMemory) :
    (∀ a b, M.order a b ≠ .gt ∨ M.order b a ≠ .gt) ∧
    (∀ a b, M.order b a = (M.order a b).swap) ∧
    (∀ a b, M.order a b ≠ .gt → M.order b a ≠ .gt → a = b) ∧
    (∀ a b c, M.order a b ≠ .gt → M.order b c ≠ .gt → M.order a c ≠ .gt) ∧
    (∀ a b, M.order a b = .eq ↔ a = b) ∧
    (∀ a b, M.order a b = .eq → a.hash M.hashValue = b.hash M.hashValue) ∧
    ∀ (Obj Node : Type) [DecidableEq Obj] [DecidableEq Node] (H : ExprHeap M Obj Node)
      (a b : Obj) (equivs : Equivs Obj), H.Valid equivs → ∃ N, ∀ n, N ≤ n →
        H.Returns (M.order (H.expr a) (H.expr b)) (H.compare n a b equivs) ∧
        clearing (H.compare n) a b equivs = some (M.order (H.expr a) (H.expr b), []) := by
  refine ⟨order_total.total, order_total.swap, fun _ _ => order_total.antisymm,
    fun _ _ _ => order_total.trans, order_total.eq_iff,
    fun a b h => by rw [(order_eq_iff a b).mp h], ?_⟩
  intro Obj Node _ _ H a b equivs hvalid
  refine ⟨sizeOf (H.expr a), fun n hn => ?_⟩
  obtain ⟨equivs', he, hv⟩ := compare_returns n a hn b equivs hvalid
  exact ⟨⟨equivs', he, hv⟩, by rw [clearing, he]; rfl⟩

/-- Two constants of one value, and a negation of each. -/
def twoNots : ExprHeap arrayMemory (Fin 4) Empty where
  address a := 8 * a.val
  expr a := if a < 2 then .alloc 5 8 else .not (.alloc 5 8)
  getKids a := if a < 2 then [] else [a - 2]
  head _ := none
  index n := n.elim
  value n := n.elim
  next n := n.elim
  getKids_expr
    | 0 | 1 | 2 | 3 => rfl
  head_nodes a u i h := by
    split_ifs at h
    cases h

/-- The negations are equal where the set holds the pair of the constants. -/
theorem compare_twoNots :
    twoNots.Valid [(0, 1)] ∧ ∃ N, ∀ n, N ≤ n →
      twoNots.Returns .eq (twoNots.compare n 2 3 [(0, 1)]) ∧
      clearing (twoNots.compare n) 2 3 [(0, 1)] = some (.eq, []) := by
  have hvalid : twoNots.Valid [(0, 1)] := by
    intro p hp
    obtain rfl := List.mem_singleton.mp hp
    rfl
  obtain ⟨-, -, -, -, heq, -, hcompare⟩ := compare_lawful arrayMemory
  have hreturns := hcompare (Fin 4) Empty twoNots 2 3 [(0, 1)] hvalid
  have horder : arrayMemory.order (twoNots.expr 2) (twoNots.expr 3) = .eq := (heq _ _).mpr rfl
  rw [horder] at hreturns
  exact ⟨hvalid, hreturns⟩

end ExprHeap

end TaseVerifier
