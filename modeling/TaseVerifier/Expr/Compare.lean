import Mathlib.Data.String.Basic
import Mathlib.Logic.Encodable.Basic
import Mathlib.Logic.Equiv.List
import TaseVerifier.Expr.Hash
import TaseVerifier.Expr.Kids
import TaseVerifier.Library.Comparison

/-! The order of expressions that `Expr::compare` computes: kinds, hashes, the contents of
the class, and the kids from first to last. Here it is a function of the expressions
alone. The root arrays of update lists are told apart by their addresses. -/

namespace TaseVerifier

open Library

/-- The number of the kind in `Expr::Kind`. -/
def CastKind.code : CastKind → ℕ
  | .ZExt => 7
  | .SExt => 8

/-- `getKind`. -/
def Expr.kindCode : Expr → ℕ
  | .constant _ => 0
  | .notOptimized _ => 1
  | .read _ _ => 3
  | .select _ _ _ => 4
  | .concat _ _ => 5
  | .extract _ _ _ => 6
  | .cast k _ _ => k.code
  | .not _ => 9
  | .binary k _ _ => k.code

/-- `compareContents` of the classes other than `ReadExpr`. -/
def Expr.compareContents : Expr → Expr → Ordering
  | .constant c, .constant d => (compare c.width d.width).then (compare c.toNat d.toNat)
  | .concat l r, .concat l' r' => compare (l.getWidth + r.getWidth) (l'.getWidth + r'.getWidth)
  | .extract _ off w, .extract _ off' w' => (compare off off').then (compare w w')
  | .cast _ _ w, .cast _ _ w' => compare w w'
  | _, _ => .eq

def UpdateList.getSize : UpdateList → ℕ
  | .root _ => 0
  | .node _ _ next => next.getSize + 1

/-! ### Nodes of one kind -/

/-- Two nodes of the same kind. -/
inductive Expr.SameKind : Expr → Expr → Prop
  | constant (c d : APInt) : Expr.SameKind (.constant c) (.constant d)
  | notOptimized (s t : Expr) : Expr.SameKind (.notOptimized s) (.notOptimized t)
  | read (u : UpdateList) (i : Expr) (v : UpdateList) (j : Expr) :
    Expr.SameKind (.read u i) (.read v j)
  | select (c t f c' t' f' : Expr) : Expr.SameKind (.select c t f) (.select c' t' f')
  | concat (l r l' r' : Expr) : Expr.SameKind (.concat l r) (.concat l' r')
  | extract (e : Expr) (off w : ℕ) (e' : Expr) (off' w' : ℕ) :
    Expr.SameKind (.extract e off w) (.extract e' off' w')
  | not (e e' : Expr) : Expr.SameKind (.not e) (.not e')
  | cast (k : CastKind) (e : Expr) (w : ℕ) (e' : Expr) (w' : ℕ) :
    Expr.SameKind (.cast k e w) (.cast k e' w')
  | binary (k : BinaryKind) (l r l' r' : Expr) : Expr.SameKind (.binary k l r) (.binary k l' r')

theorem BinaryKind.code_injective : Function.Injective BinaryKind.code := by
  intro k k'
  cases k <;> cases k' <;> simp [BinaryKind.code]

theorem BinaryKind.ten_le_code (k : BinaryKind) : 10 ≤ k.code := by
  cases k <;> decide

theorem CastKind.code_injective : Function.Injective CastKind.code := by
  intro k k'
  cases k <;> cases k' <;> simp [CastKind.code]

theorem CastKind.code_mem (k : CastKind) : 7 ≤ k.code ∧ k.code ≤ 8 := by
  cases k <;> decide

/-- The kinds have different numbers. -/
theorem Expr.sameKind_of_kindCode {a b : Expr} (h : a.kindCode = b.kindCode) : a.SameKind b := by
  cases a with
  | cast k e w =>
    have := k.code_mem
    cases b with
    | cast k' e' w' =>
      obtain rfl := CastKind.code_injective h
      exact .cast k e w e' w'
    | binary k' l' r' =>
      have := k'.ten_le_code
      simp only [Expr.kindCode] at h
      omega
    | _ =>
      simp only [Expr.kindCode] at h
      omega
  | binary k l r =>
    have := k.ten_le_code
    cases b with
    | cast k' e' w' =>
      have := k'.code_mem
      simp only [Expr.kindCode] at h
      omega
    | binary k' l' r' =>
      obtain rfl := BinaryKind.code_injective h
      exact .binary k l r l' r'
    | _ =>
      simp only [Expr.kindCode] at h
      omega
  | _ =>
    cases b with
    | cast k' e' w' =>
      have := k'.code_mem
      simp only [Expr.kindCode] at h
      omega
    | binary k' l' r' =>
      have := k'.ten_le_code
      simp only [Expr.kindCode] at h
      omega
    | _ => first | constructor | cases h

/-- What `compare` reads of the program's memory besides the expressions: the hash of a
constant's bits, and the addresses of arrays. Different arrays have different ones. -/
structure ExprMemory where
  hashValue : APInt → BitVec 32
  address : KleeArray → ℕ
  address_injective : Function.Injective address

namespace ExprMemory

variable (M : ExprMemory)

/-- What `Expr::compare` looks at before the contents. -/
def compareHead (a b : Expr) : Ordering :=
  (compare a.kindCode b.kindCode).then
    (compare (a.hash M.hashValue).toNat (b.hash M.hashValue).toNat)

/-- What `UpdateList::compare` looks at before the nodes. -/
def compareRoot (u v : UpdateList) : Ordering :=
  (compare u.array.name v.array.name).then
    ((compare (M.address u.array) (M.address v.array)).then (compare u.getSize v.getSize))

mutual
def order (a b : Expr) : Ordering :=
  (M.compareHead a b).then ((a.compareContents b).then
    (match a, b with
      | .notOptimized s, .notOptimized t => order s t
      | .read u i, .read v j => ((M.compareRoot u v).then (orderNodes u v)).then (order i j)
      | .select c t f, .select c' t' f' =>
        (order c c').then ((order t t').then (order f f'))
      | .concat l r, .concat l' r' => (order l l').then (order r r')
      | .extract e _ _, .extract e' _ _ => order e e'
      | .not e, .not e' => order e e'
      | .cast _ e _, .cast _ e' _ => order e e'
      | .binary _ l r, .binary _ l' r' => (order l l').then (order r r')
      | _, _ => .eq))
/-- The loop of `UpdateList::compare`, with `UpdateNode::compare` in each round. -/
def orderNodes (u v : UpdateList) : Ordering :=
  match u, v with
  | .node i x next, .node j y next' =>
    ((order i j).then (order x y)).then (orderNodes next next')
  | _, _ => .eq
end

variable {M : ExprMemory}

theorem Expr.compareContents_chained {a b c : Expr} (hab : a.SameKind b) (hbc : b.SameKind c) :
    Chained (a.compareContents b) (b.compareContents c) (a.compareContents c) := by
  cases hab <;> cases hbc <;>
    first
      | exact .eq
      | exact chained_compare _ _ _
      | exact (chained_compare _ _ _).then fun _ _ => chained_compare _ _ _

theorem Expr.compareContents_swap {a b : Expr} (hab : a.SameKind b) :
    b.compareContents a = (a.compareContents b).swap := by
  cases hab <;>
    first
      | rfl
      | exact compare_swap_eq _ _
      | exact then_swap (compare_swap_eq _ _) fun _ => compare_swap_eq _ _

@[simp] theorem Expr.compareContents_self (a : Expr) : a.compareContents a = .eq := by
  cases a <;> simp [Expr.compareContents]

/-! ### The laws -/

theorem compareHead_chained (a b c : Expr) :
    Chained (M.compareHead a b) (M.compareHead b c) (M.compareHead a c) :=
  (chained_compare _ _ _).then fun _ _ => chained_compare _ _ _

theorem compareHead_swap (a b : Expr) : M.compareHead b a = (M.compareHead a b).swap :=
  then_swap (compare_swap_eq _ _) fun _ => compare_swap_eq _ _

theorem sameKind_of_compareHead {a b : Expr} (h : M.compareHead a b = .eq) : a.SameKind b :=
  Expr.sameKind_of_kindCode (compare_eq_iff_eq.mp (Ordering.then_eq_eq.mp h).1)

@[simp] theorem compareHead_self (a : Expr) : M.compareHead a a = .eq :=
  Ordering.then_eq_eq.mpr ⟨compare_eq_iff_eq.mpr rfl, compare_eq_iff_eq.mpr rfl⟩

theorem compareRoot_chained (u v w : UpdateList) :
    Chained (M.compareRoot u v) (M.compareRoot v w) (M.compareRoot u w) :=
  (chained_compare _ _ _).then fun _ _ =>
    (chained_compare _ _ _).then fun _ _ => chained_compare _ _ _

theorem compareRoot_swap (u v : UpdateList) : M.compareRoot v u = (M.compareRoot u v).swap :=
  then_swap (compare_swap_eq _ _) fun _ =>
    then_swap (compare_swap_eq _ _) fun _ => compare_swap_eq _ _

theorem compareRoot_eq_iff (u v : UpdateList) :
    M.compareRoot u v = .eq ↔ u.array = v.array ∧ u.getSize = v.getSize := by
  simp only [compareRoot, Ordering.then_eq_eq, compare_eq_iff_eq, M.address_injective.eq_iff]
  exact ⟨fun h => h.2, fun h => ⟨congrArg KleeArray.name h.1, h⟩⟩

theorem order_chained_all :
    (∀ a b c, Chained (M.order a b) (M.order b c) (M.order a c)) ∧
      ∀ u v w : UpdateList, u.getSize = v.getSize → v.getSize = w.getSize →
        Chained (M.orderNodes u v) (M.orderNodes v w) (M.orderNodes u w) := by
  refine Expr.kids_induction
    (P := fun a => ∀ b c, Chained (M.order a b) (M.order b c) (M.order a c))
    (Q := fun u => ∀ v w : UpdateList, u.getSize = v.getSize → v.getSize = w.getSize →
      Chained (M.orderNodes u v) (M.orderNodes v w) (M.orderNodes u w)) ?_ ?_ ?_ ?_
  · intro u i hu hi b c
    unfold order
    refine (compareHead_chained _ b c).then fun hab hbc => ?_
    have hab := sameKind_of_compareHead hab
    have hbc := sameKind_of_compareHead hbc
    refine (Expr.compareContents_chained hab hbc).then fun _ _ => ?_
    cases hab
    cases hbc
    refine ((compareRoot_chained _ _ _).then fun huv hvw => ?_).then fun _ _ => hi _ _
    exact hu _ _ ((compareRoot_eq_iff _ _).mp huv).2 ((compareRoot_eq_iff _ _).mp hvw).2
  · intro a hread ih b c
    unfold order
    refine (compareHead_chained a b c).then fun hab hbc => ?_
    have hab := sameKind_of_compareHead hab
    have hbc := sameKind_of_compareHead hbc
    refine (Expr.compareContents_chained hab hbc).then fun _ _ => ?_
    cases hab with
    | read => exact absurd rfl (hread _ _)
    | constant => cases hbc; exact .eq
    | notOptimized s => cases hbc; exact ih s (by simp [Expr.kids]) _ _
    | extract e => cases hbc; exact ih e (by simp [Expr.kids]) _ _
    | not e => cases hbc; exact ih e (by simp [Expr.kids]) _ _
    | cast k e => cases hbc; exact ih e (by simp [Expr.kids]) _ _
    | select c t f =>
      cases hbc
      exact (ih c (by simp [Expr.kids]) _ _).then fun _ _ =>
        (ih t (by simp [Expr.kids]) _ _).then fun _ _ => ih f (by simp [Expr.kids]) _ _
    | concat l r | binary k l r =>
      cases hbc
      exact (ih l (by simp [Expr.kids]) _ _).then fun _ _ => ih r (by simp [Expr.kids]) _ _
  · intro a v w huv hvw
    cases v with
    | node => cases huv
    | root =>
      cases w with
      | node => cases hvw
      | root => exact .eq
  · intro i x next hi hx hnext v w huv hvw
    cases v with
    | root => cases huv
    | node j y next' =>
      cases w with
      | root => cases hvw
      | node k z next'' =>
        have huv : next.getSize = next'.getSize := Nat.succ.inj huv
        have hvw : next'.getSize = next''.getSize := Nat.succ.inj hvw
        exact ((hi j k).then fun _ _ => hx y z).then fun _ _ => hnext _ _ huv hvw

theorem order_swap_all :
    (∀ a b, M.order b a = (M.order a b).swap) ∧
      ∀ u v, M.orderNodes v u = (M.orderNodes u v).swap := by
  refine Expr.kids_induction (P := fun a => ∀ b, M.order b a = (M.order a b).swap)
    (Q := fun u => ∀ v, M.orderNodes v u = (M.orderNodes u v).swap) ?_ ?_ ?_ ?_
  · intro u i hu hi b
    unfold order
    refine then_swap (compareHead_swap _ b) fun hab => ?_
    have hab := sameKind_of_compareHead hab
    refine then_swap (Expr.compareContents_swap hab) fun _ => ?_
    cases hab
    exact then_swap (then_swap (compareRoot_swap _ _) fun _ => hu _) fun _ => hi _
  · intro a hread ih b
    unfold order
    refine then_swap (compareHead_swap a b) fun hab => ?_
    have hab := sameKind_of_compareHead hab
    refine then_swap (Expr.compareContents_swap hab) fun _ => ?_
    cases hab with
    | read => exact absurd rfl (hread _ _)
    | constant => rfl
    | notOptimized s => exact ih s (by simp [Expr.kids]) _
    | extract e => exact ih e (by simp [Expr.kids]) _
    | not e => exact ih e (by simp [Expr.kids]) _
    | cast k e => exact ih e (by simp [Expr.kids]) _
    | select c t f =>
      exact then_swap (ih c (by simp [Expr.kids]) _) fun _ =>
        then_swap (ih t (by simp [Expr.kids]) _) fun _ => ih f (by simp [Expr.kids]) _
    | concat l r | binary k l r =>
      exact then_swap (ih l (by simp [Expr.kids]) _) fun _ => ih r (by simp [Expr.kids]) _
  · intro a v
    cases v <;> rfl
  · intro i x next hi hx hnext v
    cases v with
    | root => rfl
    | node j y next' =>
      exact then_swap (then_swap (hi j) fun _ => hx y) fun _ => hnext _

theorem order_self_all :
    (∀ a, M.order a a = .eq) ∧ ∀ u, M.orderNodes u u = .eq := by
  refine Expr.kids_induction ?_ ?_ ?_ ?_
  · intro u i hu hi
    have hroot := (compareRoot_eq_iff (M := M) u u).mpr ⟨rfl, rfl⟩
    simp [order, hu, hi, hroot]
  · intro a hread ih
    cases a with
    | read u i => exact absurd rfl (hread u i)
    | _ => simp_all [order, Expr.kids]
  · exact fun a => rfl
  · intro i x next hi hx hnext
    simp [orderNodes, hi, hx, hnext]

theorem eq_of_order_all :
    (∀ a b, M.order a b = .eq → a = b) ∧
      ∀ u v : UpdateList, u.array = v.array → u.getSize = v.getSize →
        M.orderNodes u v = .eq → u = v := by
  refine Expr.kids_induction (P := fun a => ∀ b, M.order a b = .eq → a = b)
    (Q := fun u => ∀ v : UpdateList, u.array = v.array → u.getSize = v.getSize →
      M.orderNodes u v = .eq → u = v) ?_ ?_ ?_ ?_
  · intro u i hu hi b h
    unfold order at h
    obtain ⟨hhead, h⟩ := Ordering.then_eq_eq.mp h
    obtain ⟨hcont, h⟩ := Ordering.then_eq_eq.mp h
    have hab := sameKind_of_compareHead hhead
    cases hab with
    | read _ _ v j =>
      obtain ⟨⟨hroot, hnodes⟩, hindex⟩ : (M.compareRoot u v = .eq ∧ M.orderNodes u v = .eq) ∧
          M.order i j = .eq := by simpa using h
      obtain ⟨harray, hsize⟩ := (compareRoot_eq_iff u v).mp hroot
      rw [hu v harray hsize hnodes, hi j hindex]
  · intro a hread ih b h
    unfold order at h
    obtain ⟨hhead, h⟩ := Ordering.then_eq_eq.mp h
    obtain ⟨hcont, h⟩ := Ordering.then_eq_eq.mp h
    have hab := sameKind_of_compareHead hhead
    cases hab with
    | read => exact absurd rfl (hread _ _)
    | constant c d =>
      obtain ⟨hwidth, hvalue⟩ := Ordering.then_eq_eq.mp hcont
      exact congrArg _ (APInt.ext_toNat (compare_eq_iff_eq.mp hwidth)
        (compare_eq_iff_eq.mp hvalue))
    | notOptimized s t => exact congrArg _ (ih s (by simp [Expr.kids]) t h)
    | not e e' => exact congrArg _ (ih e (by simp [Expr.kids]) e' h)
    | extract e off w e' off' w' =>
      obtain ⟨hoff, hw⟩ := Ordering.then_eq_eq.mp hcont
      rw [ih e (by simp [Expr.kids]) e' h, compare_eq_iff_eq.mp hoff, compare_eq_iff_eq.mp hw]
    | cast k e w e' w' =>
      rw [ih e (by simp [Expr.kids]) e' h, compare_eq_iff_eq.mp hcont]
    | select c t f c' t' f' =>
      obtain ⟨hc, h⟩ := Ordering.then_eq_eq.mp h
      obtain ⟨ht, hf⟩ := Ordering.then_eq_eq.mp h
      rw [ih c (by simp [Expr.kids]) c' hc, ih t (by simp [Expr.kids]) t' ht,
        ih f (by simp [Expr.kids]) f' hf]
    | concat l r l' r' | binary k l r l' r' =>
      obtain ⟨hl, hr⟩ := Ordering.then_eq_eq.mp h
      rw [ih l (by simp [Expr.kids]) l' hl, ih r (by simp [Expr.kids]) r' hr]
  · intro a v harray hsize _
    cases v with
    | root b => exact congrArg _ harray
    | node => cases hsize
  · intro i x next hi hx hnext v harray hsize h
    cases v with
    | root => cases hsize
    | node j y next' =>
      obtain ⟨⟨hindex, hvalue⟩, hrest⟩ : (M.order i j = .eq ∧ M.order x y = .eq) ∧
          M.orderNodes next next' = .eq := by simpa [orderNodes] using h
      rw [hi j hindex, hx y hvalue, hnext next' harray (Nat.succ.inj hsize) hrest]

theorem order_eq_iff (a b : Expr) : M.order a b = .eq ↔ a = b :=
  ⟨eq_of_order_all.1 a b, fun h => h ▸ order_self_all.1 a⟩

theorem orderNodes_eq_iff {u v : UpdateList} (harray : u.array = v.array)
    (hsize : u.getSize = v.getSize) : M.orderNodes u v = .eq ↔ u = v :=
  ⟨eq_of_order_all.2 u v harray hsize, fun h => h ▸ order_self_all.2 u⟩

theorem order_total : TotalOrder M.order where
  eq_iff := order_eq_iff
  swap := order_swap_all.1
  chained := order_chained_all.1

end ExprMemory

/-- Arrays by their contents. -/
def arrayCode (a : KleeArray) : List ℕ × ℕ × ℕ × List (ℕ × ℕ) :=
  (a.name.toList.map Char.toNat, a.size, a.ufe, a.constantValues.map fun v => (v.width, v.toNat))

theorem arrayCode_injective : Function.Injective arrayCode := by
  intro a b h
  obtain ⟨name, size, ufe, values⟩ := a
  obtain ⟨name', size', ufe', values'⟩ := b
  simp only [arrayCode, Prod.mk.injEq] at h
  obtain ⟨hname, rfl, rfl, hvalues⟩ := h
  have hchars : Function.Injective Char.toNat := fun _ _ h => Char.toNat_inj.mp h
  have hints : Function.Injective fun v : APInt => (v.width, v.toNat) := by
    intro v w hvw
    obtain ⟨width, val⟩ := v
    obtain ⟨width', val'⟩ := w
    obtain ⟨rfl, hval⟩ := Prod.mk.inj hvw
    exact congrArg (APInt.mk width) (BitVec.eq_of_toNat_eq hval)
  obtain rfl := String.toList_injective (hchars.list_map hname)
  obtain rfl := hints.list_map hvalues
  rfl

def arrayMemory : ExprMemory where
  hashValue v := BitVec.ofNat 32 v.toNat
  address a := Encodable.encode (arrayCode a)
  address_injective := Encodable.encode_injective.comp arrayCode_injective

end TaseVerifier
