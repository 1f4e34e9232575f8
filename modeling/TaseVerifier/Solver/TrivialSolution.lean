import TaseVerifier.Constraints.AddSpec
import TaseVerifier.Solver.InitialValues

/-! The shortcut of the independent solver: a factor with the single constraint that a byte is
a constant is answered without the solver. The read may go through updates, and the factor
may have other arrays than the one that is read. -/

namespace TaseVerifier

/-- What the most recent update of the cell writes, where there is one. -/
def UpdateList.newestUpdate (σ : Assignment) : UpdateList → APInt → Option APInt
  | .root _, _ => none
  | .node index value next, i =>
    if index.eval σ = i then some (value.eval σ) else next.newestUpdate σ i

theorem UpdateList.evalRead_eq (σ : Assignment) : ∀ (u : UpdateList) (i : APInt),
    u.evalRead σ i = (u.newestUpdate σ i).getD (u.array.initialValue σ i.toNat)
  | .root _, _ => by rw [evalRead, newestUpdate, Option.getD_none, array]
  | .node index value next, i => by
    rw [evalRead, newestUpdate, array]
    split_ifs
    · rfl
    · exact next.evalRead_eq σ i

namespace IndependentSolver

/-- The constraint that the shortcut looks for. -/
def byteConstraint (value : APInt) (updates : UpdateList) (index : APInt) : Expr :=
  .binary .Eq (.constant value) (.read updates (.constant index))

/-- The call does not write past the vector, and an answer has a vector for each object and
satisfies the constraints as the contents of the array. -/
def TrivialSound (constraints : List Expr) (objects : List KleeArray) : Prop :=
  match getTrivialSolution constraints with
  | none => False
  | some none => True
  | some (some values) =>
    values.length = objects.length ∧ ∃ contents, values = [contents] ∧
      ∀ value updates index, constraints = [byteConstraint value updates index] →
        ∀ σ : Assignment, (List.range updates.array.size).map (σ updates.array) = contents →
          Satisfies σ constraints

/-- The bytes of the array are zero but for the value at the index. -/
def SingleByte (σ : Assignment) (a : KleeArray) (index value : APInt) : Prop :=
  ∀ i < a.size, σ a i = if i = index.toNat then BitVec.ofNat 8 value.toNat else 0

/-- Where the bytes of the array are zero but for the value, the last update of its cell writes
the value; the array has it there, if it is a constant one without such an update. -/
def KeepsValue (value : APInt) (updates : UpdateList) (index : APInt) : Prop :=
  ∀ σ : Assignment, SingleByte σ updates.array index value →
    match updates.newestUpdate σ index with
    | some w => w = value
    | none => updates.array.isSymbolicArray = true ∨
        updates.array.constantValues[index.toNat]? = some value

theorem map_range_eq_set_iff {σ : Assignment} {a : KleeArray} {index value : APInt} :
    (List.range a.size).map (σ a) =
        (List.replicate a.size 0).set index.toNat (BitVec.ofNat 8 value.toNat) ↔
      SingleByte σ a index value := by
  rw [List.ext_getElem_iff]
  simp only [List.length_map, List.length_range, List.length_set, List.length_replicate,
    List.getElem_map, List.getElem_range, List.getElem_set, List.getElem_replicate, true_and]
  refine forall_congr' fun i => ⟨fun h hlt => ?_, fun h hlt _ => ?_⟩
  · rw [h hlt hlt]
    exact if_congr eq_comm rfl rfl
  · rw [h hlt]
    exact if_congr eq_comm rfl rfl

theorem getTrivialSolution_byteConstraint (value : APInt) (updates : UpdateList) {index : APInt}
    (hindex : index.width = 32) :
    getTrivialSolution [byteConstraint value updates index] =
      if index.toNat < updates.array.size then
        some (some [(List.replicate updates.array.size 0).set index.toNat
          (BitVec.ofNat 8 value.toNat)])
      else none := by
  have hlt : index.toNat < 2 ^ 32 := hindex ▸ index.val.isLt
  simp only [getTrivialSolution, byteConstraint, Nat.mod_eq_of_lt hlt]

/-- All other lists are left to the solver. -/
theorem getTrivialSolution_eq_none {constraints : List Expr}
    (h : ∀ value updates index, constraints ≠ [byteConstraint value updates index]) :
    getTrivialSolution constraints = some none := by
  unfold getTrivialSolution
  split
  next value updates index => exact absurd rfl (h value updates index)
  next => rfl

theorem byteConstraint_inj {value value' index index' : APInt} {updates updates' : UpdateList}
    (h : [byteConstraint value updates index] = [byteConstraint value' updates' index']) :
    value = value' ∧ updates = updates' ∧ index = index' := by
  simpa [byteConstraint] using h

/-- Under an assignment with the value in its place the constraint asks what the updates
leave of it. -/
theorem holds_byteConstraint_iff {σ : Assignment} {value index : APInt} {updates : UpdateList}
    (hwt : (byteConstraint value updates index).wellTyped = true)
    (hlt : index.toNat < updates.array.size) (hσ : SingleByte σ updates.array index value) :
    Holds σ (byteConstraint value updates index) ↔
      match updates.newestUpdate σ index with
      | some w => w = value
      | none => updates.array.isSymbolicArray = true ∨
          updates.array.constantValues[index.toNat]? = some value := by
  have hwt' := hwt
  simp only [byteConstraint, Expr.wellTyped, Bool.and_eq_true, beq_iff_eq] at hwt'
  obtain ⟨w, x⟩ := value
  obtain rfl : w = 8 := hwt'.1.2
  have harray := updates.wellTyped_array hwt'.1.1.2.1.1
  rw [byteConstraint, holds_eq hwt]
  simp only [Expr.eval, updates.evalRead_eq]
  cases updates.newestUpdate σ index with
  | some w => exact eq_comm
  | none =>
    simp only [Option.getD_none, KleeArray.initialValue]
    by_cases hsym : updates.array.isSymbolicArray = true
    · have hbyte := hσ _ hlt
      rw [if_pos rfl] at hbyte
      rw [if_pos hsym, if_pos hlt, hbyte]
      exact iff_of_true (by simp [APInt.toNat]) (.inl hsym)
    · simp only [KleeArray.wellTyped, Bool.and_eq_true, Bool.or_eq_true, beq_iff_eq] at harray
      have hlen := harray.2.resolve_left hsym
      rw [if_neg hsym, List.getElem?_eq_getElem (by omega), Option.getD_some, Option.some.injEq]
      exact ⟨fun h => .inr h.symm, fun h => (h.resolve_left hsym).symm⟩

/-- Exactly when the shortcut is right: one object was asked for, the index lies inside the array,
and the updates of the read keep the value. -/
theorem trivialSound_iff (q : Query) (objects : List KleeArray)
    (hwt : ∀ c ∈ q.constraints, c.wellTyped = true) :
    TrivialSound q.constraints objects ↔
      ∀ value updates index, q.constraints = [byteConstraint value updates index] →
        objects.length = 1 ∧ index.toNat < updates.array.size ∧
          KeepsValue value updates index := by
  by_cases hshape : ∃ value updates index, q.constraints = [byteConstraint value updates index]
  · obtain ⟨value, updates, index, hq⟩ := hshape
    rw [hq, List.forall_mem_singleton] at hwt
    have hindex : index.width = 32 := by
      simp only [byteConstraint, Expr.wellTyped, Expr.getWidth, Bool.and_eq_true, beq_iff_eq] at hwt
      exact hwt.1.1.2.2
    rw [hq, TrivialSound, getTrivialSolution_byteConstraint value updates hindex]
    constructor
    · intro h value' updates' index' heq
      obtain ⟨rfl, rfl, rfl⟩ := byteConstraint_inj heq
      by_cases hlt : index.toNat < updates.array.size
      · rw [if_pos hlt] at h
        obtain ⟨hlen, contents, hcontents, hsat⟩ := h
        obtain rfl := List.singleton_inj.mp hcontents
        refine ⟨hlen.symm, hlt, fun σ hσ => ?_⟩
        have hholds := hsat value updates index rfl σ (map_range_eq_set_iff.mpr hσ)
        exact (holds_byteConstraint_iff hwt hlt hσ).mp (hholds _ List.mem_cons_self)
      · rw [if_neg hlt] at h
        exact h.elim
    · intro h
      obtain ⟨hlen, hlt, hkeeps⟩ := h value updates index rfl
      rw [if_pos hlt]
      refine ⟨hlen.symm, _, rfl, fun value' updates' index' heq σ hσ => ?_⟩
      obtain ⟨rfl, rfl, rfl⟩ := byteConstraint_inj heq
      have hsingle := map_range_eq_set_iff.mp hσ
      rw [Satisfies, List.forall_mem_singleton]
      exact (holds_byteConstraint_iff hwt hlt hsingle).mpr (hkeeps σ hsingle)
  · have hne : ∀ value updates index, q.constraints ≠ [byteConstraint value updates index] :=
      fun value updates index h => hshape ⟨value, updates, index, h⟩
    rw [TrivialSound, getTrivialSolution_eq_none hne]
    exact iff_of_true trivial fun value updates index h => absurd h (hne value updates index)

/-- A byte that is read without updates. -/
theorem trivialSound_root :
    let q : Query := ⟨[byteConstraint ⟨8, 5⟩ (.root ⟨"a", 1, 0, []⟩) ⟨32, 0⟩], .alloc 0 1⟩
    (∀ c ∈ q.constraints, c.wellTyped = true) ∧
      (TrivialSound q.constraints [⟨"a", 1, 0, []⟩] ↔
        ∀ value updates index, q.constraints = [byteConstraint value updates index] →
          [(⟨"a", 1, 0, []⟩ : KleeArray)].length = 1 ∧ index.toNat < updates.array.size ∧
            KeepsValue value updates index) := by
  intro q
  have hwt : ∀ c ∈ q.constraints, c.wellTyped = true := by decide
  exact ⟨hwt, trivialSound_iff q [⟨"a", 1, 0, []⟩] hwt⟩

/-- A read behind an update at a symbolic index: two arrays are asked for and one is answered,
and where the update hits the cell the constraint is false. -/
theorem trivialSolution_not_sound :
    let a : KleeArray := ⟨"a", 1, 0, []⟩
    let b : KleeArray := ⟨"b", 1, 1, []⟩
    let updates : UpdateList :=
      .node (.cast .ZExt (.read (.root b) (.alloc 0 32)) 32) (.alloc 7 8) (.root a)
    let q : Query := ⟨[byteConstraint ⟨8, 5⟩ updates ⟨32, 0⟩], .alloc 0 1⟩
    (∀ c ∈ q.constraints, c.wellTyped = true) ∧
      getTrivialSolution q.constraints = some (some [[5]]) ∧
      ¬ TrivialSound q.constraints [a] ∧ ¬ TrivialSound q.constraints [a, b] := by
  intro a b updates q
  have hanswer : getTrivialSolution q.constraints = some (some [[5]]) := by decide
  refine ⟨by decide, hanswer, fun h => ?_, fun h => ?_⟩
  · rw [TrivialSound, hanswer] at h
    obtain ⟨-, contents, hcontents, hsat⟩ := h
    obtain rfl := List.singleton_inj.mp hcontents
    have hholds := hsat ⟨8, 5⟩ updates ⟨32, 0⟩ rfl (fun c _ => if c = a then 5 else 0) rfl
    revert hholds
    decide
  · rw [TrivialSound, hanswer] at h
    cases h.1

end IndependentSolver

end TaseVerifier
