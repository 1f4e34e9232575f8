import Mathlib.Order.Basic
import Mathlib.Order.Nat
import TaseVerifier.Solver.InitialValues

/-! The constraints that the independent solver keeps for a query: those that share an
element with the expression, with a constraint that does, and so on. The closure is
computed by unions, and a union may forget elements. -/

namespace TaseVerifier

/-! ### The loop -/

def DenseSet.intersects (s b : DenseSet) : Bool := s.any fun u => b.contains u

namespace IndependentElementSet

def intersects (s b : IndependentElementSet) : Bool :=
  (s.wholeObjects.any fun w =>
    (b.wholeObjects.find w.1).isSome || (b.elements.find w.1).isSome) ||
  s.elements.any fun x =>
    (b.wholeObjects.find x.1).isSome ||
      match b.elements.find x.1 with
      | some dis => x.2.intersects dis
      | none => false

end IndependentElementSet

namespace IndependentSolver

/-- What one round over the worklist leaves. -/
structure Round where
  closure : IndependentElementSet
  result : List Expr
  newWorklist : List (Expr × IndependentElementSet)
  done : Bool

variable (address : KleeArray → ℕ)

def round (closure : IndependentElementSet) : List (Expr × IndependentElementSet) → Round
  | [] => ⟨closure, [], [], true⟩
  | it :: worklist =>
    if it.2.intersects closure then
      let (closure, modified) := closure.addModified address it.2
      let r := round closure worklist
      { r with result := it.1 :: r.result, done := !modified && r.done }
    else
      let r := round closure worklist
      { r with newWorklist := it :: r.newWorklist }

theorem length_round (closure : IndependentElementSet)
    (worklist : List (Expr × IndependentElementSet)) :
    (round address closure worklist).newWorklist.length ≤ worklist.length ∧
      ((round address closure worklist).done = false →
        (round address closure worklist).newWorklist.length < worklist.length) := by
  induction worklist generalizing closure with
  | nil => simp [round]
  | cons it worklist ih =>
    rw [round]
    split_ifs
    · have hle := (ih (closure.addModified address it.2).1).1
      dsimp only
      rw [List.length_cons]
      omega
    · have hih := ih closure
      dsimp only
      rw [List.length_cons, List.length_cons]
      exact ⟨Nat.succ_le_succ hih.1, fun h => Nat.succ_lt_succ (hih.2 h)⟩

/-- `do … while (!done)` -/
def closureLoop (closure : IndependentElementSet)
    (worklist : List (Expr × IndependentElementSet)) : IndependentElementSet × List Expr :=
  let r := round address closure worklist
  if _h : r.done = true then (r.closure, r.result)
  else
    let (closure, result) := closureLoop r.closure r.newWorklist
    (closure, r.result ++ result)
  termination_by worklist.length
  decreasing_by exact (length_round address closure worklist).2 (Bool.eq_false_iff.mpr _h)

/-- The closure and the list of the constraints. -/
def getIndependentConstraints (q : Query) : IndependentElementSet × List Expr :=
  closureLoop address (IndependentElementSet.ofExpr address q.expr)
    (q.constraints.map fun c => (c, IndependentElementSet.ofExpr address c))

end IndependentSolver

/-! ### Maps and sets -/

namespace ArrayMap

variable {α : Type} {address : KleeArray → ℕ}

/-- In the order of the addresses, every array once. -/
def Sorted (address : KleeArray → ℕ) (m : ArrayMap α) : Prop :=
  m.Pairwise fun x y => address x.1 ≤ address y.1 ∧ x.1 ≠ y.1

@[simp] theorem find_nil (a : KleeArray) : find ([] : ArrayMap α) a = none := rfl

theorem find_cons (x : KleeArray × α) (m : ArrayMap α) (a : KleeArray) :
    find (x :: m) a = if x.1 = a then some x.2 else find m a := by
  unfold find
  rw [List.find?_cons]
  by_cases h : x.1 = a <;> simp [h]

theorem find_set (m : ArrayMap α) (a b : KleeArray) (v : α) :
    (m.set address a v).find b = if a = b then some v else m.find b := by
  induction m with
  | nil => exact find_cons _ _ _
  | cons x m ih =>
    obtain ⟨c, w⟩ := x
    rw [set]
    by_cases hca : c = a
    · subst hca
      rw [if_pos rfl, find_cons, find_cons]
      dsimp only
      split_ifs <;> rfl
    · rw [if_neg hca]
      split_ifs with hlt hab hab
      · rw [find_cons, if_pos hab]
      · rw [find_cons, if_neg hab]
      · rw [find_cons, ih, if_pos hab, if_neg fun h => hca (h.trans hab.symm)]
      · rw [find_cons, find_cons, ih, if_neg hab]

theorem find_erase (m : ArrayMap α) (a b : KleeArray) :
    (m.erase a).find b = if a = b then none else m.find b := by
  induction m with
  | nil => simp [erase]
  | cons x m ih =>
    unfold erase at ih ⊢
    rw [List.filter_cons]
    by_cases hx : x.1 = a
    · rw [if_neg (by simpa using hx), ih, find_cons]
      split_ifs with hab hxb
      · rfl
      · exact absurd (hx.symm.trans hxb) hab
      · rfl
    · rw [if_pos (by simpa using hx), find_cons, ih, find_cons]
      split_ifs with hxb hab
      · exact absurd (hxb.trans hab.symm) hx
      all_goals rfl

theorem mem_set {m : ArrayMap α} {a : KleeArray} {v : α} {x : KleeArray × α}
    (h : x ∈ m.set address a v) : x = (a, v) ∨ x ∈ m := by
  induction m with
  | nil => exact .inl (List.mem_singleton.mp h)
  | cons y m ih =>
    obtain ⟨c, w⟩ := y
    rw [set] at h
    split_ifs at h
    · exact (List.mem_cons.mp h).imp_right (List.mem_cons_of_mem _)
    · exact List.mem_cons.mp h
    · obtain rfl | h := List.mem_cons.mp h
      · exact .inr List.mem_cons_self
      · exact (ih h).imp_right (List.mem_cons_of_mem _)

theorem Sorted.set {m : ArrayMap α} (h : m.Sorted address) (a : KleeArray) (v : α) :
    (m.set address a v).Sorted address := by
  induction m with
  | nil => exact List.pairwise_singleton _ _
  | cons y m ih =>
    obtain ⟨c, w⟩ := y
    obtain ⟨hy, hm⟩ := List.pairwise_cons.mp h
    rw [ArrayMap.set]
    split_ifs with hca hlt
    · subst hca
      exact List.pairwise_cons.mpr ⟨hy, hm⟩
    · refine List.pairwise_cons.mpr ⟨fun x hx => ?_, h⟩
      have hle : address c ≤ address x.1 := by
        obtain rfl | hx := List.mem_cons.mp hx
        · exact le_rfl
        · exact (hy x hx).1
      refine ⟨(hlt.trans_le hle).le, fun hax => ?_⟩
      dsimp only at hax
      rw [hax] at hlt
      omega
    · refine List.pairwise_cons.mpr ⟨fun x hx => ?_, ih hm⟩
      obtain rfl | hx := mem_set hx
      · exact ⟨Nat.le_of_not_lt hlt, hca⟩
      · exact hy x hx

theorem Sorted.erase {m : ArrayMap α} (h : m.Sorted address) (a : KleeArray) :
    (m.erase a).Sorted address :=
  List.Pairwise.filter _ h

theorem Sorted.mem_iff {m : ArrayMap α} (h : m.Sorted address) {a : KleeArray} {v : α} :
    (a, v) ∈ m ↔ m.find a = some v := by
  induction m with
  | nil => simp
  | cons x m ih =>
    obtain ⟨hx, hm⟩ := List.pairwise_cons.mp h
    rw [List.mem_cons, find_cons]
    by_cases hxa : x.1 = a
    · have hnot : (a, v) ∉ m := fun hmem => (hx _ hmem).2 hxa
      rw [if_pos hxa, or_iff_left hnot, Option.some.injEq]
      exact ⟨fun h => (congrArg Prod.snd h).symm, fun h => (Prod.ext hxa h).symm⟩
    · rw [if_neg hxa, ih hm]
      exact or_iff_right fun h => hxa (congrArg Prod.fst h).symm

end ArrayMap

namespace DenseSet

variable {s b : DenseSet} {x : ℕ}

theorem mem_insert (x y : ℕ) (s : DenseSet) : x ∈ s.insert y ↔ x = y ∨ x ∈ s := by
  induction s with
  | nil => simp [insert]
  | cons z s ih =>
    rw [insert]
    split_ifs with hlt hgt
    · exact List.mem_cons
    · rw [List.mem_cons, ih, List.mem_cons]
      exact or_left_comm
    · obtain rfl : y = z := by omega
      simp

theorem sorted_insert (h : s.Pairwise (· < ·)) (y : ℕ) : (s.insert y).Pairwise (· < ·) := by
  induction s with
  | nil => exact List.pairwise_singleton _ _
  | cons z s ih =>
    obtain ⟨hz, hs⟩ := List.pairwise_cons.mp h
    rw [insert]
    split_ifs with hlt hgt
    · refine List.pairwise_cons.mpr ⟨fun x hx => ?_, h⟩
      obtain rfl | hx := List.mem_cons.mp hx
      · exact hlt
      · exact hlt.trans (hz x hx)
    · refine List.pairwise_cons.mpr ⟨fun x hx => ?_, ih hs⟩
      obtain rfl | hx := (mem_insert x y s).mp hx
      · exact hgt
      · exact hz x hx
    · exact h

theorem mem_addLoop_true (x : ℕ) (s b : DenseSet) :
    x ∈ (addLoop s true b).1 ↔ x ∈ s ∨ x ∈ b := by
  induction b generalizing s with
  | nil => simp [addLoop]
  | cons y b ih =>
    rw [addLoop, if_pos (by simp), ih, mem_insert, List.mem_cons]
    tauto

/-- From the first common index on everything is taken over, and nothing without one. -/
theorem mem_add (hb : b.Pairwise (· < ·)) :
    x ∈ (s.add b).1 ↔ x ∈ s ∨ x ∈ b ∧ ∃ v ∈ b, v ∈ s ∧ v ≤ x := by
  unfold add
  induction b with
  | nil => simp [addLoop]
  | cons y b ih =>
    obtain ⟨hy, hb⟩ := List.pairwise_cons.mp hb
    rw [addLoop, Bool.false_or]
    by_cases hys : y ∈ s
    · rw [if_pos (by simpa using hys), mem_addLoop_true, mem_insert]
      have hle : x ∈ y :: b → y ≤ x := fun h =>
        (List.mem_cons.mp h).elim (fun h => h.ge) fun h => (hy x h).le
      constructor
      · rintro ((rfl | h) | h)
        · exact .inl hys
        · exact .inl h
        · exact .inr ⟨List.mem_cons_of_mem _ h, y, List.mem_cons_self, hys, (hy x h).le⟩
      · rintro (h | ⟨h, -⟩)
        · exact .inl (.inr h)
        · exact (List.mem_cons.mp h).imp .inl id
    · rw [if_neg (by simpa using hys), ih hb]
      refine or_congr_right ⟨?_, ?_⟩
      · rintro ⟨hx, v, hv, hvs, hle⟩
        exact ⟨List.mem_cons_of_mem _ hx, v, List.mem_cons_of_mem _ hv, hvs, hle⟩
      · rintro ⟨hx, v, hv, hvs, hle⟩
        have hv : v ∈ b := (List.mem_cons.mp hv).resolve_left fun h => hys (h ▸ hvs)
        refine ⟨(List.mem_cons.mp hx).resolve_left fun h => ?_, v, hv, hvs, hle⟩
        have := hy v hv
        omega

theorem sorted_add (hs : s.Pairwise (· < ·)) : (s.add b).1.Pairwise (· < ·) := by
  have hloop : ∀ m, (addLoop s m b).1.Pairwise (· < ·) := by
    induction b generalizing s with
    | nil => exact fun _ => hs
    | cons y b ih =>
      intro m
      rw [addLoop]
      split_ifs
      · exact ih (sorted_insert hs y) true
      · exact ih hs m
  exact hloop false

theorem add_of_false (h : (s.add b).2 = false) : (s.add b).1 = s := by
  have htrue : ∀ (s b : DenseSet), (addLoop s true b).2 = true := by
    intro s b
    induction b generalizing s with
    | nil => rfl
    | cons y b ih =>
      rw [addLoop, if_pos (by simp), ih]
  unfold add at h ⊢
  induction b with
  | nil => rfl
  | cons y b ih =>
    rw [addLoop] at h ⊢
    split_ifs at h ⊢
    · rw [htrue] at h
      cases h
    · exact ih h

end DenseSet

/-! ### Elements of a set -/

namespace IndependentElementSet

variable {address : KleeArray → ℕ} {s b : IndependentElementSet} {a : KleeArray} {u : ℕ}

/-- The set has the array as a whole, or the index of it. -/
def Touches (s : IndependentElementSet) (a : KleeArray) (u : ℕ) : Prop :=
  (s.wholeObjects.find a).isSome = true ∨ ∃ dis, s.elements.find a = some dis ∧ u ∈ dis

/-- What the constructor and the unions keep. -/
structure Ok (address : KleeArray → ℕ) (s : IndependentElementSet) : Prop where
  elements : s.elements.Sorted address
  wholeObjects : s.wholeObjects.Sorted address
  indices : ∀ a dis, s.elements.find a = some dis → dis ≠ [] ∧ dis.Pairwise (· < ·)

theorem Ok.set_element (h : s.Ok address) (a : KleeArray) {dis : DenseSet} (hne : dis ≠ [])
    (hdis : dis.Pairwise (· < ·)) :
    Ok address { s with elements := s.elements.set address a dis } := by
  refine ⟨h.elements.set a dis, h.wholeObjects, fun c d hd => ?_⟩
  rw [ArrayMap.find_set] at hd
  split_ifs at hd
  · obtain rfl := Option.some.inj hd
    exact ⟨hne, hdis⟩
  · exact h.indices c d hd

theorem Ok.set_whole (h : s.Ok address) (a : KleeArray) :
    Ok address { s with wholeObjects := s.wholeObjects.set address a () } :=
  ⟨h.elements, h.wholeObjects.set a (), h.indices⟩

theorem Ok.erase_element (h : s.Ok address) (a : KleeArray) :
    Ok address { s with elements := s.elements.erase a } := by
  refine ⟨h.elements.erase a, h.wholeObjects, fun c d hd => ?_⟩
  rw [ArrayMap.find_erase] at hd
  split_ifs at hd
  exact h.indices c d hd

/-- Two sets meet when they have an element in common. -/
theorem intersects_iff (hs : s.Ok address) (hb : b.Ok address) :
    s.intersects b = true ↔ ∃ a u, s.Touches a u ∧ b.Touches a u := by
  have hwhole : ∀ {t : IndependentElementSet} {a : KleeArray} {w : Unit},
      t.wholeObjects.find a = some w → ∀ u, t.Touches a u :=
    fun h u => .inl (by rw [h]; rfl)
  simp only [intersects, Bool.or_eq_true, List.any_eq_true, Prod.exists]
  constructor
  · rintro (⟨a, w, hw, hbw | hbe⟩ | ⟨a, dis, hd, hbw | hbe⟩)
    · exact ⟨a, 0, hwhole (hs.wholeObjects.mem_iff.mp hw) 0, .inl hbw⟩
    · obtain ⟨dis, hdis⟩ := Option.isSome_iff_exists.mp hbe
      obtain ⟨u, hu⟩ := List.exists_mem_of_ne_nil dis (hb.indices a dis hdis).1
      exact ⟨a, u, hwhole (hs.wholeObjects.mem_iff.mp hw) u, .inr ⟨dis, hdis, hu⟩⟩
    · have hda := hs.elements.mem_iff.mp hd
      obtain ⟨u, hu⟩ := List.exists_mem_of_ne_nil dis (hs.indices a dis hda).1
      exact ⟨a, u, .inr ⟨dis, hda, hu⟩, .inl hbw⟩
    · cases hba : b.elements.find a with
      | none => simp [hba] at hbe
      | some dis' =>
        rw [hba] at hbe
        simp only [DenseSet.intersects, List.any_eq_true, List.contains_iff_mem] at hbe
        obtain ⟨u, hu, hu'⟩ := hbe
        exact ⟨a, u, .inr ⟨dis, hs.elements.mem_iff.mp hd, hu⟩, .inr ⟨dis', hba, hu'⟩⟩
  · rintro ⟨a, u, hsw | ⟨dis, hdis, hu⟩, hbt⟩
    · obtain ⟨w, hw⟩ := Option.isSome_iff_exists.mp hsw
      refine .inl ⟨a, w, hs.wholeObjects.mem_iff.mpr hw, ?_⟩
      exact hbt.imp_right fun ⟨dis, hdis, _⟩ => by rw [hdis]; rfl
    · refine .inr ⟨a, dis, hs.elements.mem_iff.mpr hdis, ?_⟩
      refine hbt.imp_right fun ⟨dis', hdis', hu'⟩ => ?_
      rw [hdis']
      simp only [DenseSet.intersects, List.any_eq_true, List.contains_iff_mem]
      exact ⟨u, hu, hu'⟩

/-! ### The elements of an expression -/

end IndependentElementSet

/-- Reads of a constant array do not alias. -/
def aliases (r : UpdateList × Expr) : Bool :=
  match r.1 with
  | .root a => !a.isConstantArray
  | .node _ _ _ => true

/-- The reads of an array element. -/
def Expr.elementReads (e : Expr) : List (UpdateList × Expr) := e.reads.filter aliases

/-- An index as `unsigned`. -/
def APInt.toUnsigned (c : APInt) : ℕ := c.toNat % 2 ^ 32

/-- The read is of the array, at the index or at a symbolic one. -/
def ReadsAt (r : UpdateList × Expr) (a : KleeArray) (u : ℕ) : Prop :=
  r.1.array = a ∧ ∀ c, r.2 = .constant c → c.toUnsigned = u

/-- Some read of the expression is of the array, at the index or at a symbolic one. -/
def Expr.ReadsElement (e : Expr) (a : KleeArray) (u : ℕ) : Prop :=
  ∃ r ∈ e.elementReads, ReadsAt r a u

/-- The array is read at constant indices only. -/
def Expr.ReadsConstantly (e : Expr) (a : KleeArray) : Prop :=
  ∀ r ∈ e.elementReads, r.1.array = a → r.2.isConstant = true

namespace IndependentElementSet

variable {address : KleeArray → ℕ} {s b : IndependentElementSet} {a : KleeArray} {u : ℕ}

theorem touches_set_element (s : IndependentElementSet) (array : KleeArray) (dis : DenseSet) :
    Touches { s with elements := s.elements.set address array dis } a u ↔
      (s.wholeObjects.find a).isSome = true ∨
        if array = a then u ∈ dis else ∃ d, s.elements.find a = some d ∧ u ∈ d := by
  unfold Touches
  simp only [ArrayMap.find_set]
  refine or_congr_right ?_
  split_ifs
  · simp
  · rfl

theorem addIndex_spec (h : s.Ok address) (array : KleeArray) (index : Expr) :
    (addRead.addIndex address s array index).Ok address ∧ ∀ a u,
      (addRead.addIndex address s array index).Touches a u ↔
        s.Touches a u ∨ array = a ∧ ∀ c, index = .constant c → c.toUnsigned = u := by
  unfold addRead.addIndex
  by_cases hw : (s.wholeObjects.find array).isSome = true
  · rw [if_pos hw]
    refine ⟨h, fun a u => (or_iff_left_of_imp ?_).symm⟩
    rintro ⟨rfl, -⟩
    exact .inl hw
  · rw [if_neg hw]
    split
    next c =>
      have hdis : ((s.elements.find array).getD []).Pairwise (· < ·) := by
        cases hd : s.elements.find array with
        | none => exact .nil
        | some dis => exact (h.indices array dis hd).2
      have hne : ((s.elements.find array).getD []).insert c.toUnsigned ≠ [] :=
        List.ne_nil_of_mem ((DenseSet.mem_insert c.toUnsigned _ _).mpr (.inl rfl))
      refine ⟨h.set_element array hne (DenseSet.sorted_insert hdis _), fun a u => ?_⟩
      rw [touches_set_element, Touches, or_assoc]
      refine or_congr_right ?_
      split_ifs with ha
      · subst ha
        rw [DenseSet.mem_insert]
        cases s.elements.find array <;> simp [eq_comm, or_comm, APInt.toUnsigned]
      · simp [ha]
    next hsym =>
      refine ⟨(h.erase_element array).set_whole array, fun a u => ?_⟩
      simp only [Touches, ArrayMap.find_set, ArrayMap.find_erase]
      by_cases ha : array = a
      · simp only [ha, if_true, Option.isSome_some, true_or, true_iff, true_and]
        exact .inr fun c hc => absurd hc (hsym c)
      · simp [ha]

theorem addRead_spec (h : s.Ok address) (r : UpdateList × Expr) :
    (addRead address s r).Ok address ∧ ∀ a u, (addRead address s r).Touches a u ↔
      s.Touches a u ∨ aliases r = true ∧ ReadsAt r a u := by
  obtain ⟨updates, index⟩ := r
  cases updates with
  | root array =>
    unfold addRead
    cases hc : array.isConstantArray with
    | true => exact ⟨by simpa [hc] using h, fun a u => by simp [hc, aliases]⟩
    | false =>
      have hspec := addIndex_spec h array index
      exact ⟨by simpa [hc, UpdateList.array] using hspec.1, fun a u => by
        simpa [hc, UpdateList.array, ReadsAt, aliases] using hspec.2 a u⟩
  | node i v next =>
    have hspec := addIndex_spec h next.array index
    exact ⟨hspec.1, fun a u => (hspec.2 a u).trans (by simp [ReadsAt, UpdateList.array, aliases])⟩

/-- The set of an expression has the elements that the expression reads. -/
theorem ofExpr_spec (address : KleeArray → ℕ) (e : Expr) :
    (ofExpr address e).Ok address ∧ ∀ a u,
      (ofExpr address e).Touches a u ↔ e.ReadsElement a u := by
  have hfold : ∀ (l : List (UpdateList × Expr)) (s : IndependentElementSet), s.Ok address →
      (l.foldl (addRead address) s).Ok address ∧ ∀ a u,
        (l.foldl (addRead address) s).Touches a u ↔
          s.Touches a u ∨ ∃ r ∈ l, aliases r = true ∧ ReadsAt r a u := by
    intro l
    induction l with
    | nil => exact fun s hs => ⟨hs, fun a u => by simp⟩
    | cons r l ih =>
      intro s hs
      obtain ⟨hok, ht⟩ := addRead_spec hs r
      obtain ⟨hok', ht'⟩ := ih _ hok
      refine ⟨hok', fun a u => ?_⟩
      rw [List.foldl_cons, ht', ht, List.exists_mem_cons_iff, or_assoc]
  have hempty : Ok address ⟨[], [], [e]⟩ :=
    ⟨.nil, .nil, fun a dis h => by cases h⟩
  obtain ⟨hok, ht⟩ := hfold e.reads _ hempty
  refine ⟨hok, fun a u => ?_⟩
  rw [ofExpr, ht, Expr.ReadsElement, Expr.elementReads]
  simp only [List.mem_filter, and_assoc]
  refine or_iff_right ?_
  rintro (h | ⟨dis, h, -⟩)
  · cases h
  · cases h

theorem addIndex_whole (s : IndependentElementSet) (array : KleeArray) (index : Expr) :
    (addRead.addIndex address s array index).wholeObjects.find a = none ↔
      s.wholeObjects.find a = none ∧ (array = a → index.isConstant = true) := by
  unfold addRead.addIndex
  by_cases hw : (s.wholeObjects.find array).isSome = true
  · rw [if_pos hw]
    refine (and_iff_left_of_imp fun hnone ha => ?_).symm
    rw [ha, hnone] at hw
    cases hw
  · rw [if_neg hw]
    split
    next c => simp [Expr.isConstant]
    next hsym =>
      have hindex : ¬ index.isConstant = true :=
        fun h => (Expr.isConstant_iff.mp h).elim hsym
      rw [ArrayMap.find_set]
      split_ifs with ha
      · exact iff_of_false (by simp) fun h => hindex (h.2 ha)
      · simp [ha]

/-- The set of an expression has no array as a whole that is read at constant indices only. -/
theorem ofExpr_whole (address : KleeArray → ℕ) (e : Expr) (a : KleeArray) :
    (ofExpr address e).wholeObjects.find a = none ↔ e.ReadsConstantly a := by
  have hread : ∀ (s : IndependentElementSet) (r : UpdateList × Expr),
      (addRead address s r).wholeObjects.find a = none ↔ s.wholeObjects.find a = none ∧
        (aliases r = true → r.1.array = a → r.2.isConstant = true) := by
    rintro s ⟨updates, index⟩
    cases updates with
    | root array =>
      unfold addRead
      cases hc : array.isConstantArray with
      | true => simp [hc, aliases]
      | false => simpa [hc, aliases, UpdateList.array] using addIndex_whole s array index
    | node i v next =>
      unfold addRead
      simpa [aliases, UpdateList.array] using addIndex_whole s next.array index
  have hfold : ∀ (l : List (UpdateList × Expr)) (s : IndependentElementSet),
      (l.foldl (addRead address) s).wholeObjects.find a = none ↔ s.wholeObjects.find a = none ∧
        ∀ r ∈ l, aliases r = true → r.1.array = a → r.2.isConstant = true := by
    intro l
    induction l with
    | nil => simp
    | cons r l ih =>
      intro s
      rw [List.foldl_cons, ih, hread, List.forall_mem_cons, and_assoc]
  rw [ofExpr, hfold, Expr.ReadsConstantly, Expr.elementReads]
  simp only [List.mem_filter, and_imp]
  exact and_iff_right rfl

/-! ### Unions -/

/-- The union is left without the index: it comes before all that both have in common. -/
def Forgets (s b : IndependentElementSet) (a : KleeArray) (u : ℕ) : Prop :=
  s.wholeObjects.find a = none ∧ b.wholeObjects.find a = none ∧
    ∃ old dis, s.elements.find a = some old ∧ b.elements.find a = some dis ∧ u ∈ dis ∧
      ∀ v ∈ dis, v ∈ old → u < v

theorem addWhole_spec (hs : s.Ok address) (m : Bool) (w : KleeArray × Unit) :
    (addWhole address (s, m) w).1.Ok address ∧
      (∀ a, (addWhole address (s, m) w).1.wholeObjects.find a =
        if w.1 = a then some () else s.wholeObjects.find a) ∧
      ∀ a, (addWhole address (s, m) w).1.elements.find a =
        if w.1 = a then none else s.elements.find a := by
  have hskip : (s.elements.find w.1).isSome ≠ true →
      ∀ a, s.elements.find a = if w.1 = a then none else s.elements.find a := by
    intro hnone a
    split_ifs with ha
    · simpa [ha] using hnone
    · rfl
  unfold addWhole
  split_ifs with he hw
  · exact ⟨(hs.erase_element w.1).set_whole w.1, fun a => ArrayMap.find_set _ _ _ _,
      fun a => ArrayMap.find_erase _ _ _⟩
  · refine ⟨hs, fun a => ?_, hskip he⟩
    split_ifs with ha
    · exact Option.isSome_iff_exists.mp (ha ▸ hw) |>.choose_spec
    · rfl
  · exact ⟨hs.set_whole w.1, fun a => ArrayMap.find_set _ _ _ _, hskip he⟩

theorem foldl_addWhole_spec (hs : s.Ok address) (m : Bool) (l : ArrayMap Unit) :
    (l.foldl (addWhole address) (s, m)).1.Ok address ∧
      (∀ a, (l.foldl (addWhole address) (s, m)).1.wholeObjects.find a =
        if (l.find a).isSome then some () else s.wholeObjects.find a) ∧
      ∀ a, (l.foldl (addWhole address) (s, m)).1.elements.find a =
        if (l.find a).isSome then none else s.elements.find a := by
  induction l generalizing s m with
  | nil => exact ⟨hs, fun a => rfl, fun a => rfl⟩
  | cons w l ih =>
    obtain ⟨hok, hwhole, helem⟩ := addWhole_spec hs m w
    obtain ⟨hok', hwhole', helem'⟩ := ih hok (addWhole address (s, m) w).2
    refine ⟨hok', fun a => ?_, fun a => ?_⟩
    · rw [List.foldl_cons, hwhole', hwhole, ArrayMap.find_cons]
      split_ifs <;> simp_all
    · rw [List.foldl_cons, helem', helem, ArrayMap.find_cons]
      split_ifs <;> simp_all

theorem addElements_spec (hs : s.Ok address) (m : Bool) {x : KleeArray × DenseSet}
    (hne : x.2 ≠ []) (hx : x.2.Pairwise (· < ·)) :
    (addElements address (s, m) x).1.Ok address ∧
      (∀ a, x.1 ≠ a → (addElements address (s, m) x).1.elements.find a = s.elements.find a) ∧
      ∀ a u, (addElements address (s, m) x).1.Touches a u ↔ s.Touches a u ∨
        x.1 = a ∧ u ∈ x.2 ∧
          ∀ old, s.elements.find a = some old → ∃ v ∈ x.2, v ∈ old ∧ v ≤ u := by
  unfold addElements
  by_cases hw : (s.wholeObjects.find x.1).isSome = true
  · rw [if_pos hw]
    refine ⟨hs, fun a _ => rfl, fun a u => (or_iff_left_of_imp ?_).symm⟩
    rintro ⟨rfl, -⟩
    exact .inl hw
  · rw [if_neg hw]
    have hset : ∀ a dis, x.1 ≠ a →
        (s.elements.set address x.1 dis).find a = s.elements.find a :=
      fun a dis ha => by rw [ArrayMap.find_set, if_neg ha]
    cases hd : s.elements.find x.1 with
    | none =>
      refine ⟨hs.set_element x.1 hne hx, fun a ha => hset a _ ha, fun a u => ?_⟩
      dsimp only
      rw [touches_set_element, Touches]
      by_cases ha : x.1 = a
      · subst ha
        simp [hd, hw]
      · simp [ha]
    | some dis =>
      have hdis := hs.indices x.1 dis hd
      obtain ⟨v, hv⟩ := List.exists_mem_of_ne_nil dis hdis.1
      have hne' : (dis.add x.2).1 ≠ [] :=
        List.ne_nil_of_mem ((DenseSet.mem_add hx).mpr (.inl hv))
      refine ⟨hs.set_element x.1 hne' (DenseSet.sorted_add hdis.2), fun a ha => hset a _ ha,
        fun a u => ?_⟩
      dsimp only
      rw [touches_set_element, Touches]
      by_cases ha : x.1 = a
      · subst ha
        simp [hd, hw, DenseSet.mem_add hx]
      · simp [ha]

theorem foldl_addElements_spec (hs : s.Ok address) (m : Bool) {l : ArrayMap DenseSet}
    (hl : l.Sorted address) (hx : ∀ x ∈ l, x.2 ≠ [] ∧ x.2.Pairwise (· < ·)) :
    (l.foldl (addElements address) (s, m)).1.Ok address ∧
      ∀ a u, (l.foldl (addElements address) (s, m)).1.Touches a u ↔ s.Touches a u ∨
        ∃ dis, (a, dis) ∈ l ∧ u ∈ dis ∧
          ∀ old, s.elements.find a = some old → ∃ v ∈ dis, v ∈ old ∧ v ≤ u := by
  induction l generalizing s m with
  | nil => exact ⟨hs, fun a u => by simp⟩
  | cons x l ih =>
    obtain ⟨hxl, hl⟩ := List.pairwise_cons.mp hl
    rw [List.forall_mem_cons] at hx
    obtain ⟨hok, hfind, ht⟩ := addElements_spec hs m hx.1.1 hx.1.2
    obtain ⟨hok', ht'⟩ := ih hok (addElements address (s, m) x).2 hl hx.2
    refine ⟨hok', fun a u => ?_⟩
    rw [List.foldl_cons, ht', ht, or_assoc]
    refine or_congr_right ?_
    constructor
    · rintro (⟨rfl, hu, hold⟩ | ⟨dis, hmem, hu, hold⟩)
      · exact ⟨x.2, List.mem_cons_self, hu, hold⟩
      · rw [hfind a (hxl _ hmem).2] at hold
        exact ⟨dis, List.mem_cons_of_mem _ hmem, hu, hold⟩
    · rintro ⟨dis, hmem, hu, hold⟩
      obtain rfl | hmem := List.mem_cons.mp hmem
      · exact .inl ⟨rfl, hu, hold⟩
      · refine .inr ⟨dis, hmem, hu, ?_⟩
        rwa [hfind a (hxl _ hmem).2]

/-- The union has what both have, but for what it forgets. -/
theorem add_spec (hs : s.Ok address) (hb : b.Ok address) :
    (s.add address b).Ok address ∧ ∀ a u, (s.add address b).Touches a u ↔
      s.Touches a u ∨ b.Touches a u ∧ ¬ s.Forgets b a u := by
  have hs' : Ok address { s with exprs := s.exprs ++ b.exprs } :=
    ⟨hs.elements, hs.wholeObjects, hs.indices⟩
  obtain ⟨hok, hwhole, helem⟩ := foldl_addWhole_spec hs' false b.wholeObjects
  obtain ⟨hok', ht⟩ := foldl_addElements_spec hok (b.wholeObjects.foldl (addWhole address)
    ({ s with exprs := s.exprs ++ b.exprs }, false)).2 hb.elements
    fun x hx => hb.indices x.1 x.2 (hb.elements.mem_iff.mp hx)
  refine ⟨hok', fun a u => ?_⟩
  rw [add, addModified, ht, helem]
  simp only [Touches, hwhole, helem, hb.elements.mem_iff]
  by_cases hbw : (b.wholeObjects.find a).isSome = true
  · have hkept : ¬ s.Forgets b a u := fun h => by simp [h.2.1] at hbw
    simp [hbw, hkept]
  · rw [if_neg hbw, if_neg hbw]
    simp only [hbw, false_or, Bool.false_eq_true]
    constructor
    · rintro (h | ⟨dis, hdis, hu, hold⟩)
      · exact .inl h
      · refine .inr ⟨⟨dis, hdis, hu⟩, ?_⟩
        rintro ⟨-, -, old, dis', hso, hbd, -, hlt⟩
        obtain rfl := Option.some.inj (hdis.symm.trans hbd)
        obtain ⟨v, hv, hvo, hle⟩ := hold old hso
        exact absurd (hlt v hv hvo) (Nat.not_lt.mpr hle)
    · rintro (h | ⟨⟨dis, hdis, hu⟩, hkept⟩)
      · exact .inl h
      · by_cases hsw : (s.wholeObjects.find a).isSome = true
        · exact .inl (.inl hsw)
        · refine .inr ⟨dis, hdis, hu, fun old hso => ?_⟩
          by_contra hno
          refine hkept ⟨Option.not_isSome_iff_eq_none.mp hsw, Option.not_isSome_iff_eq_none.mp hbw,
            old, dis, hso, hdis, hu, fun v hv hvo => ?_⟩
          exact Nat.lt_of_not_le fun hle => hno ⟨v, hv, hvo, hle⟩

/-- The union has the arrays as a whole that one of both has. -/
theorem add_whole (hs : s.Ok address) (b : IndependentElementSet) (a : KleeArray) :
    (s.add address b).wholeObjects.find a = none ↔
      s.wholeObjects.find a = none ∧ b.wholeObjects.find a = none := by
  have hkeep : ∀ (l : ArrayMap DenseSet) (p : IndependentElementSet × Bool),
      (l.foldl (addElements address) p).1.wholeObjects = p.1.wholeObjects := by
    intro l
    induction l with
    | nil => exact fun p => rfl
    | cons x l ih =>
      intro p
      rw [List.foldl_cons, ih, addElements]
      split_ifs
      · rfl
      · split <;> rfl
  have hs' : Ok address { s with exprs := s.exprs ++ b.exprs } :=
    ⟨hs.elements, hs.wholeObjects, hs.indices⟩
  rw [add, addModified, hkeep, (foldl_addWhole_spec hs' false b.wholeObjects).2.1]
  cases b.wholeObjects.find a <;> simp

/-- What a union forgets, by the elements of both. -/
theorem forgets_iff (hs : s.Ok address) :
    s.Forgets b a u ↔ s.wholeObjects.find a = none ∧ b.wholeObjects.find a = none ∧
      (∃ v, s.Touches a v) ∧ b.Touches a u ∧
        ∀ v, b.Touches a v → s.Touches a v → u < v := by
  unfold Forgets
  refine and_congr_right fun hsw => and_congr_right fun hbw => ?_
  simp only [Touches, hsw, hbw, Option.isSome_none, Bool.false_eq_true, false_or]
  constructor
  · rintro ⟨old, dis, hold, hdis, hu, hlt⟩
    obtain ⟨v, hv⟩ := List.exists_mem_of_ne_nil old (hs.indices a old hold).1
    refine ⟨⟨v, old, hold, hv⟩, ⟨dis, hdis, hu⟩, ?_⟩
    rintro w ⟨dis', hdis', hw⟩ ⟨old', hold', hw'⟩
    obtain rfl := Option.some.inj (hdis.symm.trans hdis')
    obtain rfl := Option.some.inj (hold.symm.trans hold')
    exact hlt w hw hw'
  · rintro ⟨⟨v, old, hold, hv⟩, ⟨dis, hdis, hu⟩, hlt⟩
    exact ⟨old, dis, hold, hdis, hu, fun w hw hw' => hlt w ⟨dis, hdis, hw⟩ ⟨old, hold, hw'⟩⟩

/-- The same elements, whatever the expressions are. -/
def SameElements (s t : IndependentElementSet) : Prop :=
  ∀ a, s.wholeObjects.find a = t.wholeObjects.find a ∧ s.elements.find a = t.elements.find a

theorem SameElements.touches_iff {t : IndependentElementSet} (h : s.SameElements t) :
    s.Touches a u ↔ t.Touches a u := by
  rw [Touches, Touches, (h a).1, (h a).2]

theorem SameElements.trans {t r : IndependentElementSet} (h : s.SameElements t)
    (h' : t.SameElements r) : s.SameElements r :=
  fun a => ⟨(h a).1.trans (h' a).1, (h a).2.trans (h' a).2⟩

theorem foldl_addWhole_of_false {l : ArrayMap Unit} {p : IndependentElementSet × Bool}
    (h : (l.foldl (addWhole address) p).2 = false) : l.foldl (addWhole address) p = p := by
  induction l generalizing p with
  | nil => rfl
  | cons w l ih =>
    rw [List.foldl_cons] at h ⊢
    have hstep := ih h
    rw [hstep] at h ⊢
    unfold addWhole at h ⊢
    split_ifs at h ⊢
    rfl

theorem addElements_of_false {p : IndependentElementSet × Bool} {x : KleeArray × DenseSet}
    (h : (addElements address p x).2 = false) :
    p.2 = false ∧ (addElements address p x).1.SameElements p.1 := by
  unfold addElements at h ⊢
  split_ifs at h ⊢
  · exact ⟨h, fun a => ⟨rfl, rfl⟩⟩
  · cases hd : p.1.elements.find x.1 with
    | none =>
      rw [hd] at h
      cases h
    | some dis =>
      rw [hd] at h
      dsimp only at h ⊢
      rw [Bool.or_eq_false_iff] at h
      refine ⟨h.1, fun a => ⟨rfl, ?_⟩⟩
      rw [ArrayMap.find_set, DenseSet.add_of_false h.2]
      split_ifs with ha
      · rw [← ha, hd]
      · rfl

theorem foldl_addElements_of_false {l : ArrayMap DenseSet} {p : IndependentElementSet × Bool}
    (h : (l.foldl (addElements address) p).2 = false) :
    p.2 = false ∧ (l.foldl (addElements address) p).1.SameElements p.1 := by
  induction l generalizing p with
  | nil => exact ⟨h, fun a => ⟨rfl, rfl⟩⟩
  | cons x l ih =>
    obtain ⟨hfalse, hsame⟩ := ih h
    obtain ⟨hfalse', hsame'⟩ := addElements_of_false hfalse
    exact ⟨hfalse', hsame.trans hsame'⟩

/-- A union that reports no change is none. -/
theorem sameElements_of_not_modified (h : (s.addModified address b).2 = false) :
    (s.add address b).SameElements s := by
  obtain ⟨hfalse, hsame⟩ := foldl_addElements_of_false h
  rw [add, addModified]
  refine hsame.trans ?_
  rw [foldl_addWhole_of_false hfalse]
  exact fun a => ⟨rfl, rfl⟩

end IndependentElementSet

/-! ### The constraints that are kept -/

/-- Both read an element of the same array: at the same constant index, or one of them at a
symbolic one. -/
def SharesElement (e f : Expr) : Prop :=
  ∃ r ∈ e.elementReads, ∃ r' ∈ f.elementReads, r.1.array = r'.1.array ∧
    (r.2.isConstant = false ∨ r'.2.isConstant = false ∨
      ∃ c c', r.2 = .constant c ∧ r'.2 = .constant c' ∧ c.toUnsigned = c'.toUnsigned)

/-- A chain of constraints, each with an element of the one before, leads to the constraint. -/
inductive Reachable (q : Query) : Expr → Prop
  | query {c : Expr} : c ∈ q.constraints → SharesElement q.expr c → Reachable q c
  | next {c d : Expr} : Reachable q c → d ∈ q.constraints → SharesElement c d → Reachable q d

theorem exists_readsAt_iff (r r' : UpdateList × Expr) :
    (∃ a u, ReadsAt r a u ∧ ReadsAt r' a u) ↔ r.1.array = r'.1.array ∧
      (r.2.isConstant = false ∨ r'.2.isConstant = false ∨
        ∃ c c', r.2 = .constant c ∧ r'.2 = .constant c' ∧ c.toUnsigned = c'.toUnsigned) := by
  have hsym : ∀ {e : Expr}, e.isConstant = false → ∀ c, e ≠ .constant c := by
    rintro _ h c rfl
    cases h
  have hconst : ∀ {e : Expr}, ¬ e.isConstant = false → ∃ c, e = .constant c :=
    fun h => Expr.isConstant_iff.mp ((Bool.not_eq_false _).mp h)
  constructor
  · rintro ⟨a, u, ⟨ha, hu⟩, ha', hu'⟩
    refine ⟨ha.trans ha'.symm, ?_⟩
    by_cases hr : r.2.isConstant = false
    · exact .inl hr
    · by_cases hr' : r'.2.isConstant = false
      · exact .inr (.inl hr')
      · obtain ⟨c, hc⟩ := hconst hr
        obtain ⟨c', hc'⟩ := hconst hr'
        exact .inr (.inr ⟨c, c', hc, hc', (hu c hc).trans (hu' c' hc').symm⟩)
  · rintro ⟨ha, h⟩
    have hat : ∀ {r : UpdateList × Expr}, r.2.isConstant = false → ∀ u, ReadsAt r r.1.array u :=
      fun h u => ⟨rfl, fun c hc => absurd hc (hsym h c)⟩
    have hsome : ∀ r : UpdateList × Expr, ∃ u, ReadsAt r r.1.array u := by
      intro r
      by_cases hr : r.2.isConstant = false
      · exact ⟨0, hat hr 0⟩
      · obtain ⟨c, hc⟩ := hconst hr
        refine ⟨c.toUnsigned, rfl, fun c' hc' => ?_⟩
        rw [Expr.constant.inj (hc.symm.trans hc')]
    obtain hr | hr' | ⟨c, c', hc, hc', hcc'⟩ := h
    · obtain ⟨u, hu⟩ := hsome r'
      exact ⟨_, u, hat hr u, ha ▸ hu⟩
    · obtain ⟨u, hu⟩ := hsome r
      exact ⟨_, u, hu, ha ▸ hat hr' u⟩
    · refine ⟨_, c.toUnsigned, ⟨rfl, fun d hd => ?_⟩, ha.symm, fun d hd => ?_⟩
      · rw [Expr.constant.inj (hc.symm.trans hd)]
      · rw [hcc', Expr.constant.inj (hc'.symm.trans hd)]

theorem sharesElement_iff (e f : Expr) :
    SharesElement e f ↔ ∃ a u, e.ReadsElement a u ∧ f.ReadsElement a u := by
  simp only [SharesElement, Expr.ReadsElement, ← exists_readsAt_iff]
  constructor
  · rintro ⟨r, hr, r', hr', a, u, h, h'⟩
    exact ⟨a, u, ⟨r, hr, h⟩, r', hr', h'⟩
  · rintro ⟨a, u, ⟨r, hr, h⟩, r', hr', h'⟩
    exact ⟨r, hr, r', hr', a, u, h, h'⟩

end TaseVerifier
