import TaseVerifier.Constraints.UnionFind

/-! The union-find store against its purpose. The classes should be the equivalence
closure of the joins made, and each representative should hold exactly what was
stored for the members of its class. This is kept by every call except a `join` on
an element that is not a representative, which redirects the element alone or
leaves constraints where no search ends. -/

namespace TaseVerifier

open Library

namespace UFManager

/-- The calls on a store; `store i e` pushes `e` at the representative of `i`. -/
inductive UFOp where
  | create (x : KleeArray)
  | join (a b : ℕ)
  | store (i : ℕ) (e : Expr)

def UFOp.apply (op : UFOp) (m : UFManager) : UFManager :=
  match op with
  | .create x => (m.create x).2
  | .join a b => (m.join a b).2
  | .store i e => (m.find i).2.push (m.find i).1 e

def empty : UFManager := ⟨[]⟩

def runOps (ops : List UFOp) (m : UFManager) : UFManager := ops.foldl (fun m op => op.apply m) m

def joinsOf (ops : List UFOp) : List (ℕ × ℕ) :=
  ops.filterMap fun
    | .join a b => some (a, b)
    | _ => none

def storesOf (ops : List UFOp) : List (ℕ × Expr) :=
  ops.filterMap fun
    | .store i e => some (i, e)
    | _ => none

theorem joinsOf_append (xs ys : List UFOp) : joinsOf (xs ++ ys) = joinsOf xs ++ joinsOf ys := by
  simp [joinsOf]

theorem storesOf_append (xs ys : List UFOp) : storesOf (xs ++ ys) = storesOf xs ++ storesOf ys := by
  simp [storesOf]

/-- The handles a call is made with exist. -/
def UFOp.InRange (m : UFManager) : UFOp → Prop
  | .create _ => True
  | .join a b => a < m.size ∧ b < m.size
  | .store i _ => i < m.size

/-- A `join` that finds nothing to do, or whose second element is a representative and
either the first is one too or the second holds no constraint. -/
def JoinOk (m : UFManager) (a b : ℕ) : Prop :=
  (m.find a).1 = (m.find b).1 ∨
    (m.find b).1 = b ∧ ((m.find a).1 = a ∨ m.constraints b = [])

instance (m : UFManager) (a b : ℕ) : Decidable (m.JoinOk a b) :=
  inferInstanceAs (Decidable (_ ∨ _))

def UFOp.Ok (m : UFManager) : UFOp → Prop
  | .join a b => m.JoinOk a b
  | _ => True

instance (m : UFManager) : DecidablePred (UFOp.Ok m)
  | .create _ | .store _ _ => .isTrue trivial
  | .join a b => inferInstanceAs (Decidable (m.JoinOk a b))

/-- What the store is for, after joins `joins` and stores `stores`. -/
structure Classes (m : UFManager) (joins : List (ℕ × ℕ)) (stores : List (ℕ × Expr)) : Prop where
  wf : m.Wf
  joins_lt : ∀ q ∈ joins, q.1 < m.size ∧ q.2 < m.size
  stores_lt : ∀ q ∈ stores, q.1 < m.size
  find_eq : ∀ x y, (m.find x).1 = (m.find y).1 ↔ Connected joins x y
  stored : ∀ r, (m.find r).1 = r →
    (m.constraints r).Perm ((stores.filter fun q => (m.find q.1).1 = r).map Prod.snd)
  unstored : ∀ r, (m.find r).1 ≠ r → m.constraints r = []

section Steps

variable {m m' : UFManager} {joins : List (ℕ × ℕ)} {stores : List (ℕ × Expr)}

theorem classes_empty : Classes empty [] [] := by
  have hp : ∀ i, empty.parent i = i := fun i => by simp [empty, parent]
  have hwf : empty.Wf :=
    ⟨fun i hi => by simp [empty, size] at hi, fun x => ⟨x, .root (hp x)⟩,
      fun i => by simp [empty, rank]⟩
  have hfind : ∀ i, (empty.find i).1 = i := fun i => (find_eq_self hwf i).mpr (hp i)
  refine ⟨hwf, by simp, by simp, fun x y => ?_, fun r _ => ?_, fun r h => absurd (hfind r) h⟩
  · rw [hfind, hfind, connected_nil]
  · simp [empty, constraints]

theorem Classes.compressed (h : Classes m joins stores) (hc : Compressed m m') :
    Classes m' joins stores := by
  have hf := fun i => hc.find_eq h.wf i
  refine ⟨hc.wf, fun q hq => ?_, fun q hq => ?_, fun x y => ?_, fun r hr => ?_, fun r hr => ?_⟩
  · rw [hc.size]; exact h.joins_lt q hq
  · rw [hc.size]; exact h.stores_lt q hq
  · rw [hf, hf]; exact h.find_eq x y
  · rw [hf] at hr
    simp only [hf, hc.constraints]
    exact h.stored r hr
  · rw [hf] at hr
    rw [hc.constraints]
    exact h.unstored r hr

/-- A new element is its own parent and has no constraints. -/
theorem create_spec (hm : m.Wf) (x : KleeArray) :
    (m.create x).2.Wf ∧ (m.create x).2.size = m.size + 1 ∧ (m.create x).2.parent = m.parent ∧
      (m.create x).2.constraints = m.constraints := by
  set m' := (m.create x).2 with hm'
  have hsize : m'.size = m.size + 1 := by simp [hm', UFManager.create, size]
  have hget : ∀ i, i ≠ m.size → m'.elements[i]? = m.elements[i]? := by
    intro i hi
    simp only [hm', UFManager.create]
    rcases Nat.lt_or_gt_of_ne hi with hlt | hgt
    · exact List.getElem?_append_left hlt
    · rw [List.getElem?_eq_none (by simp [size] at hgt ⊢; omega),
        List.getElem?_eq_none (by simp [size] at hgt ⊢; omega)]
  have hnew : m'.elements[m.size]? = some ⟨m.size, x, 0, []⟩ := by
    simp [hm', UFManager.create, size]
  have hp : m'.parent = m.parent := by
    funext i
    by_cases hi : i = m.size
    · subst hi
      rw [parent_of_size_le (m := m) le_rfl, parent, hnew]
      rfl
    · rw [parent, hget i hi, parent]
  have hc : m'.constraints = m.constraints := by
    funext i
    by_cases hi : i = m.size
    · subst hi
      rw [constraints_of_size_le (m := m) le_rfl, constraints, hnew]
      rfl
    · rw [constraints, hget i hi, constraints]
  refine ⟨⟨fun i hi => ?_, by rw [hp]; exact hm.rooted, fun i => ?_⟩, hsize, hp, hc⟩
  · rw [hp, hsize]
    by_cases hi' : i < m.size
    · exact (hm.parent_lt i hi').trans (Nat.lt_succ_self _)
    · rw [parent_of_size_le (not_lt.mp hi')]
      omega
  · by_cases hi : i = m.size
    · subst hi
      rw [rank, hnew]
      rfl
    · rw [rank, hget i hi]
      exact hm.rank_zero i

/-- A new element is alone in its class. -/
theorem Classes.create (h : Classes m joins stores) (x : KleeArray) :
    Classes (m.create x).2 joins stores := by
  obtain ⟨hwf, hsize, hp, hc⟩ := create_spec h.wf x
  set m' := (m.create x).2
  have hf : ∀ i, (m'.find i).1 = (m.find i).1 := by
    intro i
    rw [find_eq_iff hwf, hp]
    exact (find_spec h.wf i).1
  refine ⟨hwf, fun q hq => ?_, fun q hq => ?_, fun x y => ?_, fun r hr => ?_, fun r hr => ?_⟩
  · have := h.joins_lt q hq
    omega
  · have := h.stores_lt q hq
    omega
  · rw [hf, hf]; exact h.find_eq x y
  · rw [hf] at hr
    simp only [hf, hc]
    exact h.stored r hr
  · rw [hf] at hr
    rw [hc]
    exact h.unstored r hr

theorem wf_push (hm : m.Wf) (i : ℕ) (e : Expr) : (m.push i e).Wf := by
  have hp : (m.push i e).parent = m.parent := by
    funext k
    simp [push]
  refine ⟨fun k hk => ?_, by rw [hp]; exact hm.rooted, fun k => ?_⟩
  · rw [hp, size_push]
    exact hm.parent_lt k (by rwa [size_push] at hk)
  · simp [push, hm.rank_zero]

theorem Classes.store (h : Classes m joins stores) {i : ℕ} (hi : i < m.size) (e : Expr) :
    Classes ((m.find i).2.push (m.find i).1 e) joins (stores ++ [(i, e)]) := by
  have hcl := h.compressed (find_spec h.wf i).2.1
  have hcomp := (find_spec h.wf i).2.1
  set m₁ := (m.find i).2
  have hr : (m.find i).1 < m₁.size := by rw [hcomp.size]; exact find_lt h.wf hi
  have hp : (m₁.push (m.find i).1 e).parent = m₁.parent := by
    funext k
    simp [push]
  have hs : (m₁.push (m.find i).1 e).size = m₁.size := by simp [push]
  have hwf : (m₁.push (m.find i).1 e).Wf := wf_push hcl.wf _ e
  have hf : ∀ k, ((m₁.push (m.find i).1 e).find k).1 = (m₁.find k).1 := by
    intro k
    rw [find_eq_iff hwf, hp]
    exact (find_spec hcl.wf k).1
  have hc : (m₁.push (m.find i).1 e).constraints =
      Function.update m₁.constraints (m.find i).1 (m₁.constraints (m.find i).1 ++ [e]) :=
    constraints_setConstraints _ hr
  have hrep : (m₁.find i).1 = (m.find i).1 := hcomp.find_eq h.wf i
  refine ⟨hwf, fun q hq => ?_, fun q hq => ?_, fun x y => ?_, fun r hr' => ?_, fun r hr' => ?_⟩
  · rw [hs]; exact hcl.joins_lt q hq
  · rw [hs]
    rcases List.mem_append.mp hq with hq | hq
    · exact hcl.stores_lt q hq
    · obtain rfl := List.mem_singleton.mp hq
      rw [hcomp.size]; exact hi
  · rw [hf, hf]; exact hcl.find_eq x y
  · rw [hf] at hr'
    simp only [hf, hc, Function.update_apply, List.filter_append, List.map_append]
    split_ifs with hri
    · subst hri
      refine (hcl.stored _ hr').append ?_
      simp [hrep]
    · have hne : ¬ (m₁.find i).1 = r := fun h' => hri (by rw [← h', hrep])
      simpa [hne] using hcl.stored r hr'
  · rw [hf] at hr'
    rw [hc, Function.update_of_ne]
    · exact hcl.unstored r hr'
    · rintro rfl
      exact hr' (by rw [hcomp.find_eq h.wf, find_find h.wf])

theorem Classes.join_same (h : Classes m joins stores) {a b : ℕ} (ha : a < m.size) (hb : b < m.size)
    (hab : (m.find a).1 = (m.find b).1) : Classes (m.join a b).2 (joins ++ [(a, b)]) stores := by
  have hcl := h.compressed (join_of_eq h.wf hab).2.1
  have hconn : Connected joins a b := (h.find_eq a b).mp hab
  refine { hcl with joins_lt := fun q hq => ?_, find_eq := fun x y => ?_ }
  · rcases List.mem_append.mp hq with hq | hq
    · exact hcl.joins_lt q hq
    · obtain rfl := List.mem_singleton.mp hq
      rw [(join_of_eq h.wf hab).2.1.size]
      exact ⟨ha, hb⟩
  · rw [hcl.find_eq, connected_append]
    constructor
    · exact .inl
    · rintro (h' | ⟨h₁, h₂⟩ | ⟨h₁, h₂⟩)
      · exact h'
      · exact .trans _ _ _ h₁ (.trans _ _ _ hconn h₂)
      · exact .trans _ _ _ h₁ (.trans _ _ _ (.symm _ _ hconn) h₂)

/-- After linking the class of `b` under the representative of `a`. -/
theorem find_joined {a b : ℕ} (hm : m.Wf) (hj : Joined m m' a b) (hb : (m.find b).1 = b)
    (hab : (m.find a).1 ≠ b) (y : ℕ) :
    (m'.find y).1 = if (m.find y).1 = b then (m.find a).1 else (m.find y).1 := by
  obtain ⟨m₁, hcomp, -, hp⟩ := hj.parent
  have hb₁ : m₁.parent b = b := (hcomp.isRoot_iff b).mpr ((find_eq_self hm b).mp hb)
  have ha₁ : m₁.parent (m.find a).1 = (m.find a).1 :=
    (hcomp.isRoot_iff _).mpr (find_spec hm a).1.isRoot
  have hy : RootOf m₁.parent y (m.find y).1 := (hcomp.rootOf _ _).mpr (find_spec hm y).1
  rw [find_eq_iff hj.wf, hp]
  split_ifs with h
  · exact hy.link_self hb₁ ha₁ hab h
  · exact hy.link_of_ne hb₁ h

/-- Filtering for one of two classes collects both. -/
theorem perm_filter_or {α : Type} (l : List α) (P Q : α → Bool) (h : ∀ x, ¬ (P x = true ∧ Q x = true)) :
    (l.filter fun x => P x || Q x).Perm (l.filter P ++ l.filter Q) := by
  induction l with
  | nil => exact .refl _
  | cons x l ih =>
    cases hP : P x with
    | true =>
      have hQ : Q x = false := by
        have := h x
        simpa [hP] using this
      simpa [List.filter_cons, hP, hQ] using ih
    | false =>
      cases hQ : Q x with
      | true =>
        simp only [List.filter_cons, hP, hQ, Bool.or_true, if_true, Bool.false_eq_true, if_false]
        exact (ih.cons x).trans List.perm_middle.symm
      | false => simpa [List.filter_cons, hP, hQ] using ih

section Link

variable {a b r : ℕ} (h : Classes m joins stores) (hj : Joined m m' a b)
  (hne : (m.find a).1 ≠ (m.find b).1) (hbr : (m.find b).1 = b)

include h hj hne hbr

/-- A representative of the new store is one of the old store, and not `b`. -/
theorem Classes.link_root : (m'.find r).1 = r ↔ (m.find r).1 = r ∧ r ≠ b := by
  have hib : (m.find a).1 ≠ b := hbr ▸ hne
  rw [find_joined h.wf hj hbr hib r]
  split_ifs with hrb
  · constructor
    · rintro rfl
      exact absurd ((find_find h.wf a).symm.trans hrb) hib
    · rintro ⟨hr, hrb'⟩
      exact absurd (hr.symm.trans hrb) hrb'
  · constructor
    · exact fun hr => ⟨hr, fun hrb' => hrb (hr.trans hrb')⟩
    · exact fun hr => hr.1

theorem Classes.link_find_eq (x y : ℕ) :
    (m'.find x).1 = (m'.find y).1 ↔ Connected (joins ++ [(a, b)]) x y := by
  have hib : (m.find a).1 ≠ b := hbr ▸ hne
  have hf := find_joined h.wf hj hbr hib
  rw [connected_append, ← h.find_eq, ← h.find_eq, ← h.find_eq, ← h.find_eq, ← h.find_eq, hf, hf, hbr]
  split_ifs with hx hy hy
  · simp [hx, hy]
  · rw [hx]
    exact ⟨fun h' => .inr (.inr ⟨rfl, h'⟩), fun h' => by
      rcases h' with h' | ⟨h₁, -⟩ | ⟨-, h₂⟩
      · exact absurd h'.symm hy
      · exact absurd h₁.symm hib
      · exact h₂⟩
  · rw [hy]
    exact ⟨fun h' => .inr (.inl ⟨h', rfl⟩), fun h' => by
      rcases h' with h' | ⟨h₁, -⟩ | ⟨h₁, -⟩
      · exact absurd h' hx
      · exact h₁
      · exact absurd h₁ hx⟩
  · exact ⟨.inl, fun h' => by
      rcases h' with h' | ⟨-, h₂⟩ | ⟨h₁, -⟩
      · exact h'
      · exact absurd h₂.symm hy
      · exact absurd h₁ hx⟩

/-- The representative of `a` gets the constraints of `b`; no other representative changes. -/
theorem Classes.link_constraints (hor : (m.find a).1 = a ∨ m.constraints b = [])
    (hr : (m'.find r).1 = r) :
    m'.constraints r =
      if r = (m.find a).1 then m.constraints r ++ m.constraints b else m.constraints r := by
  obtain ⟨-, hrb⟩ := (h.link_root hj hne hbr).mp hr
  rw [hj.constraints, Function.update_of_ne hrb, Function.update_apply]
  rcases hor with haa | hcb
  · rw [haa]
    split_ifs with hra
    · rw [hra]
    · rfl
  · rw [hcb, List.append_nil, List.append_nil]
    split_ifs with hra
    · rw [hra]
    · rw [hra]
    · rfl
    · rfl

theorem Classes.link_stored (hor : (m.find a).1 = a ∨ m.constraints b = [])
    (hr : (m'.find r).1 = r) :
    (m'.constraints r).Perm ((stores.filter fun q => (m'.find q.1).1 = r).map Prod.snd) := by
  obtain ⟨hrm, hrb⟩ := (h.link_root hj hne hbr).mp hr
  have hf := find_joined h.wf hj hbr (hbr ▸ hne)
  rw [h.link_constraints hj hne hbr hor hr]
  split_ifs with hra
  · -- the class of `r` now has the stores of both classes
    have hsplit : (stores.filter fun q => (m'.find q.1).1 = r) =
        stores.filter fun q => decide ((m.find q.1).1 = r) || decide ((m.find q.1).1 = b) := by
      refine List.filter_congr fun q _ => ?_
      rw [hf]
      split_ifs with hqb
      · simp [hqb, hra]
      · simp [hqb]
    rw [hsplit]
    refine (((h.stored r hrm).append (h.stored b hbr)).trans ?_)
    rw [← List.map_append]
    refine (List.Perm.map _ (perm_filter_or stores _ _ fun q hq => ?_)).symm
    simp only [decide_eq_true_eq] at hq
    exact hrb (hq.1.symm.trans hq.2)
  · have hsame : (stores.filter fun q => (m'.find q.1).1 = r) =
        stores.filter fun q => (m.find q.1).1 = r := by
      refine List.filter_congr fun q _ => ?_
      rw [hf]
      split_ifs with hqb
      · simp [hqb, Ne.symm hra, Ne.symm hrb]
      · rfl
    rw [hsame]
    exact h.stored r hrm

theorem Classes.link_unstored (hor : (m.find a).1 = a ∨ m.constraints b = [])
    (hr : (m'.find r).1 ≠ r) : m'.constraints r = [] := by
  rw [hj.constraints]
  by_cases hrb : r = b
  · rw [hrb, Function.update_self]
  · have hrm : (m.find r).1 ≠ r := fun h' => hr ((h.link_root hj hne hbr).mpr ⟨h', hrb⟩)
    rw [Function.update_of_ne hrb, Function.update_apply]
    split_ifs with hra
    · subst hra
      rw [h.unstored r hrm, hor.resolve_left hrm, List.append_nil]
    · exact h.unstored r hrm

end Link

theorem Classes.join_link (h : Classes m joins stores) {a b : ℕ} (ha : a < m.size) (hb : b < m.size)
    (hne : (m.find a).1 ≠ (m.find b).1) (hbr : (m.find b).1 = b)
    (hor : (m.find a).1 = a ∨ m.constraints b = []) :
    Classes (m.join a b).2 (joins ++ [(a, b)]) stores := by
  obtain ⟨-, hj⟩ := join_of_ne h.wf ha hb hne
  refine ⟨hj.wf, fun q hq => ?_, fun q hq => ?_, h.link_find_eq hj hne hbr, fun r hr =>
    h.link_stored hj hne hbr hor hr, fun r hr => h.link_unstored hj hne hbr hor hr⟩
  · rw [hj.size]
    rcases List.mem_append.mp hq with hq | hq
    · exact h.joins_lt q hq
    · obtain rfl := List.mem_singleton.mp hq
      exact ⟨ha, hb⟩
  · rw [hj.size]
    exact h.stores_lt q hq

/-- Every call that meets the condition keeps the store what it is for. -/
theorem Classes.apply {op : UFOp} (h : Classes m joins stores) (hr : op.InRange m) (hok : op.Ok m) :
    Classes (op.apply m) (joins ++ joinsOf [op]) (stores ++ storesOf [op]) := by
  cases op with
  | create x => simpa [joinsOf, storesOf, UFOp.apply] using h.create x
  | store i e => simpa [joinsOf, storesOf, UFOp.apply] using h.store hr e
  | join a b =>
    have hgoal : Classes (m.join a b).2 (joins ++ [(a, b)]) stores := by
      by_cases hab : (m.find a).1 = (m.find b).1
      · exact h.join_same hr.1 hr.2 hab
      · obtain ⟨hb, hor⟩ := hok.resolve_left hab
        exact h.join_link hr.1 hr.2 hab hb hor
    simpa [joinsOf, storesOf, UFOp.apply] using hgoal

end Steps

/-- Every call along `ops` satisfies `P` in the state it is made in. -/
def Along (P : UFManager → UFOp → Prop) : UFManager → List UFOp → Prop
  | _, [] => True
  | m, op :: ops => P m op ∧ Along P (op.apply m) ops

instance decidableAlong (P : UFManager → UFOp → Prop) [∀ m, DecidablePred (P m)] :
    ∀ (m : UFManager) (ops : List UFOp), Decidable (Along P m ops)
  | _, [] => .isTrue trivial
  | m, op :: ops => @instDecidableAnd _ _ _ (decidableAlong P (op.apply m) ops)

theorem along_append {P : UFManager → UFOp → Prop} {xs ys : List UFOp} {m : UFManager} :
    Along P m (xs ++ ys) ↔ Along P m xs ∧ Along P (runOps xs m) ys := by
  induction xs generalizing m with
  | nil => simp [Along, runOps]
  | cons op xs ih => simp only [List.cons_append, Along, ih, runOps, List.foldl_cons, and_assoc]

theorem Along.initial {P : UFManager → UFOp → Prop} {ops pre : List UFOp} {m : UFManager}
    (h : Along P m ops) (hpre : pre <+: ops) : Along P m pre := by
  obtain ⟨suf, rfl⟩ := hpre
  exact (along_append.mp h).1

theorem Along.last {P : UFManager → UFOp → Prop} {pre : List UFOp} {op : UFOp} {m : UFManager}
    (h : Along P m (pre ++ [op])) : P (runOps pre m) op :=
  (along_append.mp h).2.1

/-- A run of calls that meet the condition keeps the store what it is for. -/
theorem Classes.runOps {m : UFManager} {joins : List (ℕ × ℕ)} {stores : List (ℕ × Expr)}
    (h : Classes m joins stores) (ops : List UFOp) (hr : Along UFOp.InRange m ops)
    (hok : Along UFOp.Ok m ops) :
    Classes (runOps ops m) (joins ++ joinsOf ops) (stores ++ storesOf ops) := by
  induction ops generalizing m joins stores with
  | nil => simpa [joinsOf, storesOf, UFManager.runOps] using h
  | cons op ops ih =>
    have hcl := ih (h.apply hr.1 hok.1) hr.2 hok.2
    rw [List.append_assoc, List.append_assoc, ← joinsOf_append, ← storesOf_append] at hcl
    exact hcl

theorem classes_runOps (ops : List UFOp) (hr : Along UFOp.InRange empty ops)
    (hok : Along UFOp.Ok empty ops) :
    Classes (runOps ops empty) (joinsOf ops) (storesOf ops) := by
  simpa using classes_empty.runOps ops hr hok

/-- The representative's constraints, the classes and the result of `join` are what the
interface promises, for the calls `ops` made so far and any next `join`. -/
def MeetsInterface (ops : List UFOp) : Prop :=
  let m := runOps ops empty
  (∀ a b, a < m.size → b < m.size →
    ((m.find a).1 = (m.find b).1 ↔ Connected (joinsOf ops) a b)) ∧
  (∀ r < m.size, (m.find r).1 = r → (m.constraints r).Perm
    ((storesOf ops).filter (fun q => (m.find q.1).1 = r) |>.map Prod.snd)) ∧
  (∀ r < m.size, (m.find r).1 ≠ r → m.constraints r = []) ∧
  ∀ pre a b, ops = pre ++ [.join a b] →
    ((runOps pre empty).join a b).1 = (m.find a).1 ∧ (m.find a).1 = (m.find b).1

/-- The result of a `join` that meets the condition represents the merged class. -/
theorem Classes.join_result {m : UFManager} {joins : List (ℕ × ℕ)} {stores : List (ℕ × Expr)}
    (h : Classes m joins stores) {a b : ℕ} (ha : a < m.size) (hb : b < m.size)
    (hok : m.JoinOk a b) :
    (m.join a b).1 = ((m.join a b).2.find a).1 ∧
      ((m.join a b).2.find a).1 = ((m.join a b).2.find b).1 := by
  by_cases hab : (m.find a).1 = (m.find b).1
  · obtain ⟨h₁, h₂, -⟩ := join_of_eq h.wf hab
    rw [h₁, h₂.find_eq h.wf, h₂.find_eq h.wf]
    exact ⟨rfl, hab⟩
  · obtain ⟨hbr, -⟩ := hok.resolve_left hab
    obtain ⟨h₁, h₂⟩ := join_of_ne h.wf ha hb hab
    have hib : (m.find a).1 ≠ b := hbr ▸ hab
    rw [h₁, find_joined h.wf h₂ hbr hib, find_joined h.wf h₂ hbr hib, if_neg hib, if_pos hbr]
    exact ⟨rfl, rfl⟩

/-- In every run whose joins meet the condition, the store does what its interface
promises in every state reached. -/
theorem joins_keep_interface (ops : List UFOp) (hr : Along UFOp.InRange empty ops)
    (hok : Along UFOp.Ok empty ops) : ∀ pre, pre <+: ops → MeetsInterface pre := by
  intro pre hpre
  have hcl := classes_runOps pre (hr.initial hpre) (hok.initial hpre)
  refine ⟨fun a b _ _ => hcl.find_eq a b, fun r _ => hcl.stored r, fun r _ => hcl.unstored r, ?_⟩
  rintro pre' a b rfl
  have hr' := hr.initial hpre
  have hok' := hok.initial hpre
  have hcl' := classes_runOps pre' (hr'.initial (List.prefix_append _ _))
    (hok'.initial (List.prefix_append _ _))
  simpa [runOps, UFOp.apply] using hcl'.join_result hr'.last.1 hr'.last.2 hok'.last

/-- Three arrays, joined in one class through their representatives. -/
theorem joins_keep_interface_chain :
    let x : KleeArray := ⟨"x", 1, 0, []⟩
    let ops : List UFOp :=
      [.create x, .create x, .create x, .join 1 2, .store 2 (.alloc 1 1), .join 0 1]
    MeetsInterface ops ∧ (runOps ops empty).constraints 0 = [.alloc 1 1] := by
  intro x ops
  have hr : Along UFOp.InRange empty ops := by
    simp only [ops, Along, UFOp.InRange]
    decide
  have hok : Along UFOp.Ok empty ops := by
    simp only [ops, Along, UFOp.Ok]
    decide
  exact ⟨joins_keep_interface ops hr hok ops (List.prefix_refl _), by decide⟩

/-- A join with an element of a class already formed takes the element out of it. -/
theorem join_redirects_member :
    let x : KleeArray := ⟨"x", 1, 0, []⟩
    ¬ MeetsInterface [.create x, .create x, .create x, .join 0 1, .join 2 1] := by
  intro x h
  have hfind := (h.1 0 1 (by decide) (by decide)).mpr (.rel _ _ (by decide))
  revert hfind
  decide

end UFManager

end TaseVerifier
