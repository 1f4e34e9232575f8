import TaseVerifier.Expr.Eval
import TaseVerifier.Library.Forest

/-! The union-find store of constraints: an element for each array, found through
parent pointers with path compression, and the constraints kept with the elements.
`join` looks up the two representatives but then works on the elements it was
called with. -/

namespace TaseVerifier

open Library

structure UFElement where
  parent : ℕ
  arr : KleeArray
  rank : ℕ
  constraints : List Expr
  deriving DecidableEq

structure UFManager where
  elements : List UFElement
  deriving DecidableEq

namespace UFManager

def parent (m : UFManager) (i : ℕ) : ℕ := (m.elements[i]?.map UFElement.parent).getD i

def rank (m : UFManager) (i : ℕ) : ℕ := (m.elements[i]?.map UFElement.rank).getD 0

def constraints (m : UFManager) (i : ℕ) : List Expr :=
  (m.elements[i]?.map UFElement.constraints).getD []

def setParent (i r : ℕ) (m : UFManager) : UFManager :=
  ⟨m.elements.modify i fun x => { x with parent := r }⟩

def setConstraints (i : ℕ) (cs : List Expr) (m : UFManager) : UFManager :=
  ⟨m.elements.modify i fun x => { x with constraints := cs }⟩

def size (m : UFManager) : ℕ := m.elements.length

/-- A new element is its own parent; its index is the handle of the array. -/
def create (x : KleeArray) (m : UFManager) : ℕ × UFManager :=
  (m.size, ⟨m.elements ++ [⟨m.size, x, 0, []⟩]⟩)

/-- `find` on an element, to the depth `n`. -/
def findElement : ℕ → ℕ → UFManager → ℕ × UFManager
  | 0, i, m => (m.parent i, m)
  | n + 1, i, m =>
    if i = m.parent i then (m.parent i, m)
    else
      let (r, m) := findElement n (m.parent i) m
      (r, m.setParent i r)

/-- No path is longer than there are elements. -/
def find (i : ℕ) (m : UFManager) : ℕ × UFManager := findElement m.size i m

/-- The constraints of the element `i` are appended to those of `k`. -/
def moveConstraints (i k : ℕ) (m : UFManager) : UFManager :=
  (m.setConstraints k (m.constraints k ++ m.constraints i)).setConstraints i []

/-- The last case has no return statement; every rank is zero, so it is not reached. -/
def join (a b : ℕ) (m : UFManager) : ℕ × UFManager :=
  let (i, m) := m.find a
  let (j, m) := m.find b
  if i = j then (i, m)
  else if m.rank b ≤ m.rank a then
    let m' := m.setParent b (m.parent a)
    if m.rank a = m.rank b then (i, m'.moveConstraints b a) else (j, m'.moveConstraints a b)
  else (i, m)

/-- `(*ufmanager)[rep].constraints.push_back(e)`. -/
def push (rep : ℕ) (e : Expr) (m : UFManager) : UFManager :=
  m.setConstraints rep (m.constraints rep ++ [e])

/-- The loop of `updateUFStructures` over adjacent arrays. -/
def joinAdjacent (e : Expr) (a : KleeArray) : KleeArray → List KleeArray → UFManager → UFManager
  | b, [], m =>
    let (rep, m) := m.join a.ufe b.ufe
    m.push rep e
  | b, c :: arrs, m => joinAdjacent e b c arrs (m.join a.ufe b.ufe).2

def updateUFStructures (arrs : List KleeArray) (e : Expr) (m : UFManager) : UFManager :=
  match arrs with
  | [] => m
  | [a] =>
    let (rep, m) := m.find a.ufe
    m.push rep e
  | a :: b :: arrs => joinAdjacent e a b arrs m

/-! Reading back the fields of an updated manager. -/

section Fields

variable (m : UFManager) (i k r : ℕ) (cs : List Expr)

@[simp] theorem size_setParent : (m.setParent i r).size = m.size := by simp [setParent, size]
@[simp] theorem size_setConstraints : (m.setConstraints i cs).size = m.size := by
  simp [setConstraints, size]

@[simp] theorem constraints_setParent : (m.setParent i r).constraints k = m.constraints k := by
  simp only [setParent, constraints, List.getElem?_modify]
  cases m.elements[k]? <;> by_cases h : i = k <;> simp [h]

@[simp] theorem rank_setParent : (m.setParent i r).rank k = m.rank k := by
  simp only [setParent, rank, List.getElem?_modify]
  cases m.elements[k]? <;> by_cases h : i = k <;> simp [h]

@[simp] theorem parent_setConstraints : (m.setConstraints i cs).parent k = m.parent k := by
  simp only [setConstraints, parent, List.getElem?_modify]
  cases m.elements[k]? <;> by_cases h : i = k <;> simp [h]

@[simp] theorem rank_setConstraints : (m.setConstraints i cs).rank k = m.rank k := by
  simp only [setConstraints, rank, List.getElem?_modify]
  cases m.elements[k]? <;> by_cases h : i = k <;> simp [h]

@[simp] theorem size_findElement (n : ℕ) : (findElement n i m).2.size = m.size := by
  induction n generalizing i with
  | zero => rfl
  | succ n ih =>
    unfold findElement
    split_ifs
    · rfl
    · rw [size_setParent, ih]

@[simp] theorem size_find : (m.find i).2.size = m.size := size_findElement m i _

@[simp] theorem size_join : (m.join i k).2.size = m.size := by
  unfold join
  simp only
  split_ifs <;> simp [moveConstraints]

@[simp] theorem size_push (e : Expr) : (m.push i e).size = m.size := by simp [push]

theorem size_joinAdjacent (e : Expr) (a b : KleeArray) (arrs : List KleeArray) :
    (joinAdjacent e a b arrs m).size = m.size := by
  induction arrs generalizing a b m with
  | nil => simp [joinAdjacent]
  | cons c arrs ih => rw [joinAdjacent, ih, size_join]

theorem size_updateUFStructures (arrs : List KleeArray) (e : Expr) :
    (updateUFStructures arrs e m).size = m.size := by
  match arrs with
  | [] => rfl
  | [a] => simp [updateUFStructures]
  | a :: b :: arrs => exact size_joinAdjacent m e a b arrs

variable {m i}

theorem parent_setParent (hi : i < m.size) :
    (m.setParent i r).parent = Function.update m.parent i r := by
  funext k
  simp only [setParent, parent, List.getElem?_modify, Function.update_apply]
  by_cases h : k = i
  · subst h
    simp [List.getElem?_eq_getElem hi]
  · cases m.elements[k]? <;> simp [h, Ne.symm h]

theorem constraints_setConstraints (hi : i < m.size) :
    (m.setConstraints i cs).constraints = Function.update m.constraints i cs := by
  funext k
  simp only [setConstraints, constraints, List.getElem?_modify, Function.update_apply]
  by_cases h : k = i
  · subst h
    simp [List.getElem?_eq_getElem hi]
  · cases m.elements[k]? <;> simp [h, Ne.symm h]

theorem parent_of_size_le (h : m.size ≤ i) : m.parent i = i := by
  simp [parent, List.getElem?_eq_none h]

theorem constraints_of_size_le (h : m.size ≤ i) : m.constraints i = [] := by
  simp [constraints, List.getElem?_eq_none h]

theorem lt_size_of_parent_ne (h : m.parent i ≠ i) : i < m.size := by
  by_contra hlt
  exact h (parent_of_size_le (not_lt.mp hlt))

end Fields

/-- What every history of calls keeps: the parents form a forest inside the vector and
all ranks are zero. -/
structure Wf (m : UFManager) : Prop where
  parent_lt : ∀ i < m.size, m.parent i < m.size
  rooted : WellRooted m.parent
  rank_zero : ∀ i, m.rank i = 0

theorem rootOf_lt_size {m : UFManager} (hm : m.Wf) {i r : ℕ} (h : RootOf m.parent i r)
    (hi : i < m.size) : r < m.size := by
  induction h with
  | root => exact hi
  | step _ _ ih => exact ih (hm.parent_lt _ hi)

/-- `m'` differs from `m` only by compressed paths. -/
structure Compressed (m m' : UFManager) : Prop where
  wf : m'.Wf
  size : m'.size = m.size
  rootOf : ∀ y s, RootOf m'.parent y s ↔ RootOf m.parent y s
  parent : ∀ y, m'.parent y = m.parent y ∨ RootOf m.parent y (m'.parent y)
  constraints : m'.constraints = m.constraints

theorem Compressed.refl {m : UFManager} (hm : m.Wf) : Compressed m m :=
  ⟨hm, rfl, fun _ _ => .rfl, fun _ => .inl rfl, rfl⟩

theorem Compressed.isRoot_iff {m m' : UFManager} (h : Compressed m m') (r : ℕ) :
    m'.parent r = r ↔ m.parent r = r := by
  constructor
  · exact fun hr => ((h.rootOf r r).mp (.root hr)).isRoot
  · exact fun hr => ((h.rootOf r r).mpr (.root hr)).isRoot

theorem Compressed.trans {m m' m'' : UFManager} (h : Compressed m m') (h' : Compressed m' m'') :
    Compressed m m'' where
  wf := h'.wf
  size := h'.size.trans h.size
  rootOf y s := (h'.rootOf y s).trans (h.rootOf y s)
  parent y := by
    rcases h'.parent y with hy | hy
    · rw [hy]; exact h.parent y
    · exact .inr ((h.rootOf _ _).mp hy)
  constraints := h'.constraints.trans h.constraints

theorem Compressed.setParent {m m' : UFManager} (h : Compressed m m') {i r : ℕ}
    (hi : i < m.size) (hr : RootOf m.parent i r) : Compressed m (m'.setParent i r) := by
  have hi' : i < m'.size := by rw [h.size]; exact hi
  have hr' : RootOf m'.parent i r := (h.rootOf i r).mpr hr
  have hp := parent_setParent (m := m') r hi'
  refine ⟨⟨fun k hk => ?_, ?_, fun k => ?_⟩, ?_, fun y s => ?_, fun y => ?_, ?_⟩
  · rw [size_setParent] at hk ⊢
    rw [hp, Function.update_apply]
    split_ifs
    · exact rootOf_lt_size h.wf hr' hi'
    · exact h.wf.parent_lt k hk
  · rw [hp]; exact h.wf.rooted.compress hr'
  · rw [rank_setParent]; exact h.wf.rank_zero k
  · rw [size_setParent, h.size]
  · rw [hp, rootOf_compress_iff h.wf.rooted hr', h.rootOf]
  · rw [hp, Function.update_apply]
    split_ifs with hy
    · subst hy; exact .inr hr
    · exact h.parent y
  · funext k
    rw [constraints_setParent, h.constraints]

/-- Enough depth finds the root and compresses the path to it. -/
theorem findElement_spec {m : UFManager} (hm : m.Wf) {n k i r : ℕ} (hk : k ≤ n)
    (hr : m.parent^[k] i = r) (hroot : m.parent r = r) :
    (findElement n i m).1 = r ∧ Compressed m (findElement n i m).2 ∧
      (findElement n i m).2.parent i = r := by
  induction n generalizing k i with
  | zero =>
    obtain rfl : k = 0 := by omega
    obtain rfl : i = r := hr
    exact ⟨hroot, .refl hm, hroot⟩
  | succ n ih =>
    unfold findElement
    split_ifs with hi
    · have hir : i = r := by
        rw [← hr, Function.iterate_fixed hi.symm]
      exact ⟨by rw [← hi, hir], .refl hm, by rw [← hi, hir]⟩
    · obtain ⟨k, rfl⟩ : ∃ k', k = k' + 1 := by
        refine Nat.exists_eq_add_one.mpr (Nat.pos_of_ne_zero fun h => hi ?_)
        subst h
        obtain rfl : i = r := hr
        exact hroot.symm
      obtain ⟨h₁, h₂, h₃⟩ := ih (k := k) (i := m.parent i) (by omega) hr
      have hi' : i < m.size := lt_size_of_parent_ne (Ne.symm hi)
      have hri : RootOf m.parent i r := .step (Ne.symm hi) (rootOf_of_iterate hr hroot)
      simp only [h₁]
      refine ⟨trivial, h₂.setParent hi' hri, ?_⟩
      rw [parent_setParent r (by rw [h₂.size]; exact hi'), Function.update_self]

theorem find_spec {m : UFManager} (hm : m.Wf) (i : ℕ) :
    RootOf m.parent i (m.find i).1 ∧ Compressed m (m.find i).2 ∧
      (m.find i).2.parent i = (m.find i).1 := by
  obtain ⟨r, hr⟩ := hm.rooted i
  obtain ⟨n, hn, hnr⟩ : ∃ n ≤ m.size, m.parent^[n] i = r := by
    by_cases hi : i < m.size
    · obtain ⟨n, hn, h⟩ := hr.exists_iterate_lt (Finset.range m.size)
        (fun y hy => by simpa using hm.parent_lt y (by simpa using hy)) (by simpa using hi)
      rw [Finset.card_range] at hn
      exact ⟨n, hn.le, h⟩
    · exact ⟨0, Nat.zero_le _, (hr.eq_self (parent_of_size_le (not_lt.mp hi))).symm⟩
  obtain ⟨h₁, h₂, h₃⟩ := findElement_spec hm hn hnr hr.isRoot
  exact ⟨by rw [find, h₁]; exact hr, h₂, by rw [find, h₁]; exact h₃⟩

theorem find_eq_iff {m : UFManager} (hm : m.Wf) (i r : ℕ) :
    (m.find i).1 = r ↔ RootOf m.parent i r :=
  ⟨fun h => h ▸ (find_spec hm i).1, fun h => (find_spec hm i).1.unique h⟩

theorem find_lt {m : UFManager} (hm : m.Wf) {i : ℕ} (hi : i < m.size) : (m.find i).1 < m.size :=
  rootOf_lt_size hm (find_spec hm i).1 hi

theorem find_eq_self {m : UFManager} (hm : m.Wf) (i : ℕ) : (m.find i).1 = i ↔ m.parent i = i := by
  rw [find_eq_iff hm]
  exact ⟨fun h => h.isRoot, fun h => .root h⟩

theorem find_find {m : UFManager} (hm : m.Wf) (i : ℕ) : (m.find (m.find i).1).1 = (m.find i).1 :=
  (find_eq_self hm _).mpr (find_spec hm i).1.isRoot

theorem Compressed.find_eq {m m' : UFManager} (hm : m.Wf) (h : Compressed m m') (i : ℕ) :
    (m'.find i).1 = (m.find i).1 := by
  rw [find_eq_iff h.wf, h.rootOf]
  exact (find_spec hm i).1

/-- The effect of `join` on two elements of different classes: the second element gets
the representative of the first as its parent, and its constraints go to the first
element. -/
structure Joined (m m' : UFManager) (a b : ℕ) : Prop where
  wf : m'.Wf
  size : m'.size = m.size
  parent : ∃ m₁, Compressed m m₁ ∧ m₁.parent a = (m.find a).1 ∧
    m'.parent = Function.update m₁.parent b (m.find a).1
  constraints : m'.constraints =
    Function.update (Function.update m.constraints a (m.constraints a ++ m.constraints b)) b []

/-- The two searches of `join`: the first path stays compressed. -/
theorem find_find_spec {m : UFManager} (hm : m.Wf) (a b : ℕ) :
    Compressed m ((m.find a).2.find b).2 ∧ ((m.find a).2.find b).2.parent a = (m.find a).1 ∧
      ((m.find a).2.find b).1 = (m.find b).1 := by
  obtain ⟨hra, hca, hpa⟩ := find_spec hm a
  obtain ⟨-, hcb, -⟩ := find_spec hca.wf b
  refine ⟨hca.trans hcb, ?_, hca.find_eq hm b⟩
  rcases hcb.parent a with h | h
  · rw [h, hpa]
  · exact ((hca.rootOf _ _).mp h).unique hra

theorem join_of_eq {m : UFManager} (hm : m.Wf) {a b : ℕ} (h : (m.find a).1 = (m.find b).1) :
    (m.join a b).1 = (m.find a).1 ∧ Compressed m (m.join a b).2 ∧
      (m.join a b).2.parent a = (m.find a).1 := by
  obtain ⟨hcomp, hpar, hj⟩ := find_find_spec hm a b
  have hij : (m.find a).1 = ((m.find a).2.find b).1 := by rw [hj, h]
  unfold join
  simp only [← hij, if_true]
  exact ⟨trivial, hcomp, hpar⟩

theorem join_of_ne {m : UFManager} (hm : m.Wf) {a b : ℕ} (ha : a < m.size) (hb : b < m.size)
    (h : (m.find a).1 ≠ (m.find b).1) :
    (m.join a b).1 = (m.find a).1 ∧ Joined m (m.join a b).2 a b := by
  have hra := (find_spec hm a).1
  obtain ⟨hcomp, hpar, hj⟩ := find_find_spec hm a b
  set m₂ := ((m.find a).2.find b).2 with hm₂
  have hij : (m.find a).1 ≠ ((m.find a).2.find b).1 := by rw [hj]; exact h
  have hne : (m.find a).1 ≠ b := by
    intro hb'
    exact h (hb' ▸ (find_find hm a).symm.trans (by rw [hb']))
  have hab : b ≠ a := by rintro rfl; exact h rfl
  have hr0 := hcomp.wf.rank_zero
  have hjoin : m.join a b = ((m.find a).1, (m₂.setParent b (m.find a).1).moveConstraints b a) := by
    unfold join
    simp only [hij, if_false, ← hm₂, hr0, le_refl, if_true, hpar]
  rw [hjoin]
  have hb₂ : b < m₂.size := by rw [hcomp.size]; exact hb
  have ha₂ : a < m₂.size := by rw [hcomp.size]; exact ha
  have hp : ((m₂.setParent b (m.find a).1).moveConstraints b a).parent =
      Function.update m₂.parent b (m.find a).1 := by
    funext k
    simp only [moveConstraints, parent_setConstraints, parent_setParent _ hb₂]
  have hroot : m₂.parent (m.find a).1 = (m.find a).1 := (hcomp.isRoot_iff _).mpr hra.isRoot
  refine ⟨rfl, ⟨fun k hk => ?_, ?_, fun k => ?_⟩, ?_, ⟨m₂, hcomp, hpar, hp⟩, ?_⟩
  · have hs : ((m₂.setParent b (m.find a).1).moveConstraints b a).size = m₂.size := by
      simp [moveConstraints]
    rw [hs] at hk ⊢
    rw [hp, Function.update_apply]
    split_ifs
    · rw [hcomp.size]; exact rootOf_lt_size hm hra ha
    · exact hcomp.wf.parent_lt k hk
  · rw [hp]
    exact hcomp.wf.rooted.redirect hroot hne
  · simp [moveConstraints, hr0]
  · simp [moveConstraints, hcomp.size]
  · have hc₂ : (m₂.setParent b (m.find a).1).constraints = m.constraints := by
      funext k
      rw [constraints_setParent, hcomp.constraints]
    rw [moveConstraints, constraints_setConstraints _ (by simpa using hb₂),
      constraints_setConstraints _ (by simpa using ha₂), hc₂]

end UFManager

end TaseVerifier
