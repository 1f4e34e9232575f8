import TaseVerifier.Constraints.Classes
import TaseVerifier.Library.Support

/-! Slices of the path condition. The union-find store is asked for the constraints of
the classes an expression's arrays belong to. When the store is what it is for, the
slice holds every constraint connected to the expression, and leaving out the others
does not change the values the expression can take. -/

namespace TaseVerifier

open Library

namespace UFManager

/-- `Executor::getDepCons`: the constraints at the representative of each array. -/
def getDepCons (e : Expr) (m : UFManager) : List Expr × UFManager :=
  (findSymbolicObjects e).foldl
    (fun (cons, m) a =>
      let (rep, m) := m.find a.ufe
      (cons ++ m.constraints rep, m))
    ([], m)

/-- The list `required` of `IndependentSolver::computeValidity`, which reads the
elements of the arrays themselves. -/
def required (e : Expr) (m : UFManager) : List Expr :=
  (findSymbolicObjects e).flatMap fun a => m.constraints a.ufe

/-! `updateUFStructures` as a sequence of calls on the store. -/

def adjacentOps (e : Expr) (a : KleeArray) : KleeArray → List KleeArray → List UFOp
  | b, [] => [.join a.ufe b.ufe, .store a.ufe e]
  | b, c :: arrs => .join a.ufe b.ufe :: adjacentOps e b c arrs

def updateOps (arrs : List KleeArray) (e : Expr) : List UFOp :=
  match arrs with
  | [] => []
  | [a] => [.store a.ufe e]
  | a :: b :: arrs => adjacentOps e a b arrs

theorem setParent_self (m : UFManager) (i : ℕ) : m.setParent i (m.parent i) = m := by
  obtain ⟨es⟩ := m
  simp only [setParent, parent, mk.injEq]
  refine List.ext_getElem? fun k => ?_
  rw [List.getElem?_modify]
  by_cases h : i = k
  · subst h
    cases es[i]? <;> simp
  · cases es[k]? <;> simp [h]

/-- A search along a compressed path changes nothing. -/
theorem find_compressed {m : UFManager} {a r : ℕ} (ha : a < m.size) (hp : m.parent a = r)
    (hr : m.parent r = r) : m.find a = (r, m) := by
  obtain ⟨n, hn⟩ : ∃ n, m.size = n + 1 := Nat.exists_eq_add_one.mpr (Nat.zero_lt_of_lt ha)
  rw [find, hn, findElement]
  split_ifs with h
  · rw [hp]
  · have hroot : ∀ n, findElement n r m = (r, m) := by
      intro n
      cases n with
      | zero => simp [findElement, hr]
      | succ n => simp [findElement, hr]
    rw [hp, hroot]
    simp only [Prod.mk.injEq, true_and]
    rw [← hp, setParent_self]

/-- After a join, a search from its first element finds the result at once. -/
theorem find_join {m : UFManager} (hm : m.Wf) {a b : ℕ} (ha : a < m.size) (hb : b < m.size) :
    (m.join a b).2.find a = m.join a b := by
  have hra := (find_spec hm a).1.isRoot
  by_cases hab : (m.find a).1 = (m.find b).1
  · obtain ⟨h₁, h₂, h₃⟩ := join_of_eq hm hab
    rw [find_compressed (by rw [h₂.size]; exact ha) h₃ ((h₂.isRoot_iff _).mpr hra), ← h₁]
  · obtain ⟨h₁, h₂⟩ := join_of_ne hm ha hb hab
    obtain ⟨m₁, hc₁, hpar, hp⟩ := h₂.parent
    have hba : a ≠ b := by rintro rfl; exact hab rfl
    have hne : (m.find a).1 ≠ b := by
      intro h
      exact hab ((find_find hm a).symm.trans (by rw [h]))
    rw [find_compressed (r := (m.find a).1) (by rw [h₂.size]; exact ha), ← h₁]
    · rw [hp, Function.update_of_ne hba, hpar]
    · rw [hp, Function.update_of_ne hne, (hc₁.isRoot_iff _).mpr hra]

theorem wf_join {m : UFManager} (hm : m.Wf) {a b : ℕ} (ha : a < m.size) (hb : b < m.size) :
    (m.join a b).2.Wf := by
  by_cases hab : (m.find a).1 = (m.find b).1
  · exact (join_of_eq hm hab).2.1.wf
  · exact (join_of_ne hm ha hb hab).2.wf

theorem joinAdjacent_eq_runOps (e : Expr) {a b : KleeArray} {arrs : List KleeArray} {m : UFManager}
    (hm : m.Wf) (ha : a.ufe < m.size) (hb : b.ufe < m.size) (hr : ∀ c ∈ arrs, c.ufe < m.size) :
    joinAdjacent e a b arrs m = runOps (adjacentOps e a b arrs) m := by
  induction arrs generalizing a b m with
  | nil =>
    simp only [joinAdjacent, adjacentOps, runOps, List.foldl_cons, List.foldl_nil, UFOp.apply,
      find_join hm ha hb]
  | cons c arrs ih =>
    have hsize := size_join m a.ufe b.ufe
    exact ih (wf_join hm ha hb) (by rw [hsize]; exact hb) (by rw [hsize]; exact hr c (by simp))
      fun d hd => by rw [hsize]; exact hr d (by simp [hd])

/-- An update of the store is the sequence of its calls. -/
theorem updateUFStructures_eq_runOps {arrs : List KleeArray} (e : Expr) {m : UFManager} (hm : m.Wf)
    (hr : ∀ a ∈ arrs, a.ufe < m.size) :
    updateUFStructures arrs e m = runOps (updateOps arrs e) m := by
  match arrs with
  | [] => rfl
  | [a] => rfl
  | a :: b :: arrs =>
    exact joinAdjacent_eq_runOps e hm (hr a (by simp)) (hr b (by simp))
      fun c hc => hr c (by simp [hc])

theorem along_inRange_adjacentOps (e : Expr) {a b : KleeArray} {arrs : List KleeArray}
    {m : UFManager} (ha : a.ufe < m.size) (hb : b.ufe < m.size) (hr : ∀ c ∈ arrs, c.ufe < m.size) :
    Along UFOp.InRange m (adjacentOps e a b arrs) := by
  induction arrs generalizing a b m with
  | nil => exact ⟨⟨ha, hb⟩, by simpa [UFOp.InRange, UFOp.apply] using ha, trivial⟩
  | cons c arrs ih =>
    have hsize := size_join m a.ufe b.ufe
    exact ⟨⟨ha, hb⟩, ih (by simpa [UFOp.apply] using hb)
      (by simpa [UFOp.apply] using hr c (by simp))
      fun d hd => by simpa [UFOp.apply] using hr d (by simp [hd])⟩

theorem along_inRange_updateOps (e : Expr) {arrs : List KleeArray} {m : UFManager}
    (hr : ∀ a ∈ arrs, a.ufe < m.size) : Along UFOp.InRange m (updateOps arrs e) := by
  match arrs with
  | [] => trivial
  | [a] => exact ⟨hr a (by simp), trivial⟩
  | a :: b :: arrs =>
    exact along_inRange_adjacentOps e (hr a (by simp)) (hr b (by simp))
      fun c hc => hr c (by simp [hc])

/-- The joins of an update connect its arrays. -/
theorem connected_adjacentOps (e : Expr) (a b : KleeArray) (arrs : List KleeArray) :
    ∀ c ∈ a :: b :: arrs, Connected (joinsOf (adjacentOps e a b arrs)) a.ufe c.ufe := by
  induction arrs generalizing a b with
  | nil =>
    intro c hc
    have hab : Connected (joinsOf (adjacentOps e a b [])) a.ufe b.ufe :=
      .rel _ _ (by simp [adjacentOps, joinsOf])
    rcases List.mem_cons.mp hc with rfl | hc
    · exact .refl _
    · obtain rfl := List.mem_singleton.mp hc
      exact hab
  | cons d arrs ih =>
    intro c hc
    have hsplit : joinsOf (adjacentOps e a b (d :: arrs)) =
        (a.ufe, b.ufe) :: joinsOf (adjacentOps e b d arrs) := rfl
    have hab : Connected (joinsOf (adjacentOps e a b (d :: arrs))) a.ufe b.ufe :=
      .rel _ _ (by simp [hsplit])
    rcases List.mem_cons.mp hc with rfl | hc
    · exact .refl _
    · refine .trans _ _ _ hab (connected_mono ?_ (ih b d c hc))
      intro q hq
      rw [hsplit]
      exact List.mem_cons_of_mem _ hq

theorem connected_updateOps (e : Expr) {arrs : List KleeArray} {a b : KleeArray} (ha : a ∈ arrs)
    (hb : b ∈ arrs) : Connected (joinsOf (updateOps arrs e)) a.ufe b.ufe := by
  match arrs with
  | [] => cases ha
  | [c] =>
    obtain rfl := List.mem_singleton.mp ha
    obtain rfl := List.mem_singleton.mp hb
    exact .refl _
  | c :: d :: arrs =>
    exact .trans _ _ _ (.symm _ _ (connected_adjacentOps e c d arrs a ha))
      (connected_adjacentOps e c d arrs b hb)

/-- An update stores its constraint once, for one of the arrays. -/
theorem storesOf_adjacentOps (e : Expr) (a b : KleeArray) (arrs : List KleeArray) :
    ∃ c ∈ a :: b :: arrs, storesOf (adjacentOps e a b arrs) = [(c.ufe, e)] := by
  induction arrs generalizing a b with
  | nil => exact ⟨a, by simp, rfl⟩
  | cons d arrs ih =>
    obtain ⟨c, hc, h⟩ := ih b d
    exact ⟨c, List.mem_cons_of_mem _ hc, h⟩

theorem storesOf_updateOps (e : Expr) {arrs : List KleeArray} (h : arrs ≠ []) :
    ∃ c ∈ arrs, storesOf (updateOps arrs e) = [(c.ufe, e)] := by
  match arrs with
  | [] => exact absurd rfl h
  | [a] => exact ⟨a, by simp, rfl⟩
  | a :: b :: arrs => exact storesOf_adjacentOps e a b arrs

/-- The store `m` after the constraints `added` were handed to it. -/
structure StoreInv (m : UFManager) (added : List Expr) (joins : List (ℕ × ℕ))
    (stores : List (ℕ × Expr)) : Prop where
  classes : Classes m joins stores
  linked : ∀ c ∈ added, ∀ a ∈ c.symbolicRoots, ∀ b ∈ c.symbolicRoots, Connected joins a.ufe b.ufe
  stored : ∀ c ∈ added, c.symbolicRoots ≠ [] → ∃ a ∈ c.symbolicRoots, (a.ufe, c) ∈ stores
  from_added : ∀ q ∈ stores, q.2 ∈ added ∧ ∃ a ∈ q.2.symbolicRoots, q.1 = a.ufe

theorem storeInv_empty : StoreInv empty [] [] [] :=
  ⟨classes_empty, by simp, by simp, by simp⟩

section StoreInv

variable {m : UFManager} {added : List Expr} {joins : List (ℕ × ℕ)} {stores : List (ℕ × Expr)}

theorem StoreInv.create (h : StoreInv m added joins stores) (x : KleeArray) :
    StoreInv (m.create x).2 added joins stores :=
  { h with classes := h.classes.create x }

theorem StoreInv.compressed {m' : UFManager} (h : StoreInv m added joins stores)
    (hc : Compressed m m') : StoreInv m' added joins stores :=
  { h with classes := h.classes.compressed hc }

theorem findSymbolicObjects_eq_nil {e : Expr} : findSymbolicObjects e = [] ↔ e.symbolicRoots = [] := by
  simp only [List.eq_nil_iff_forall_not_mem, mem_findSymbolicObjects]

/-- Handing one more constraint to the store. -/
theorem StoreInv.update (h : StoreInv m added joins stores) {c : Expr}
    (hr : ∀ a ∈ c.symbolicRoots, a.ufe < m.size)
    (hok : Along UFOp.Ok m (updateOps (findSymbolicObjects c) c)) :
    StoreInv (updateUFStructures (findSymbolicObjects c) c m) (added ++ [c])
      (joins ++ joinsOf (updateOps (findSymbolicObjects c) c))
      (stores ++ storesOf (updateOps (findSymbolicObjects c) c)) := by
  have hr' : ∀ a ∈ findSymbolicObjects c, a.ufe < m.size :=
    fun a ha => hr a ((mem_findSymbolicObjects c a).mp ha)
  have hcl := h.classes.runOps _ (along_inRange_updateOps c hr') hok
  rw [← updateUFStructures_eq_runOps c h.classes.wf hr'] at hcl
  refine ⟨hcl, fun d hd a ha b hb => ?_, fun d hd hne => ?_, fun q hq => ?_⟩
  · rcases List.mem_append.mp hd with hd | hd
    · exact connected_mono (fun q hq => List.mem_append_left _ hq) (h.linked d hd a ha b hb)
    · obtain rfl := List.mem_singleton.mp hd
      exact connected_mono (fun q hq => List.mem_append_right _ hq)
        (connected_updateOps d ((mem_findSymbolicObjects d a).mpr ha)
          ((mem_findSymbolicObjects d b).mpr hb))
  · rcases List.mem_append.mp hd with hd | hd
    · obtain ⟨a, ha, hs⟩ := h.stored d hd hne
      exact ⟨a, ha, List.mem_append_left _ hs⟩
    · obtain rfl := List.mem_singleton.mp hd
      obtain ⟨a, ha, hs⟩ := storesOf_updateOps d (findSymbolicObjects_eq_nil.not.mpr hne)
      exact ⟨a, (mem_findSymbolicObjects d a).mp ha, by simp [hs]⟩
  · rcases List.mem_append.mp hq with hq | hq
    · obtain ⟨hd, hex⟩ := h.from_added q hq
      exact ⟨List.mem_append_left _ hd, hex⟩
    · by_cases hne : findSymbolicObjects c = []
      · simp [hne, updateOps, storesOf] at hq
      · obtain ⟨a, ha, hs⟩ := storesOf_updateOps c hne
        rw [hs, List.mem_singleton] at hq
        subst hq
        exact ⟨by simp, a, (mem_findSymbolicObjects c a).mp ha, rfl⟩

/-- A constraint is kept exactly at the representative of its arrays. -/
theorem StoreInv.mem_constraints_iff (h : StoreInv m added joins stores) {c : Expr} {r : ℕ} :
    c ∈ m.constraints r ↔ c ∈ added ∧ ∃ a ∈ c.symbolicRoots, (m.find a.ufe).1 = r := by
  by_cases hr : (m.find r).1 = r
  · rw [(h.classes.stored r hr).mem_iff]
    simp only [List.mem_map, List.mem_filter, decide_eq_true_eq]
    constructor
    · rintro ⟨q, ⟨hq, hqr⟩, rfl⟩
      obtain ⟨hadd, a, ha, hqa⟩ := h.from_added q hq
      exact ⟨hadd, a, ha, by rw [← hqa]; exact hqr⟩
    · rintro ⟨hadd, a, ha, har⟩
      obtain ⟨b, hb, hs⟩ := h.stored c hadd (List.ne_nil_of_mem ha)
      exact ⟨(b.ufe, c), ⟨hs, ((h.classes.find_eq _ _).mpr (h.linked c hadd b hb a ha)).trans har⟩,
        rfl⟩
  · rw [h.classes.unstored r hr]
    constructor
    · intro hc
      cases hc
    · rintro ⟨-, a, -, rfl⟩
      exact absurd (find_find h.classes.wf a.ufe) hr

/-- The slice of `e`: the constraints in the classes of its arrays. -/
def IsSlice (m : UFManager) (added : List Expr) (e : Expr) (slice : List Expr) : Prop :=
  ∀ c, c ∈ slice ↔ c ∈ added ∧
    ∃ a ∈ c.symbolicRoots, ∃ b ∈ e.symbolicRoots, (m.find a.ufe).1 = (m.find b.ufe).1

theorem satisfies_dependsOn (cs : List Expr) :
    DependsOn (fun σ : Assignment => Satisfies σ cs) {a | ∃ c ∈ cs, a ∈ c.symbolicRoots} := by
  intro σ τ hστ
  refine propext ⟨fun h c hc => ?_, fun h c hc => ?_⟩
  · exact (Holds.congr fun a ha => hστ a ⟨c, hc, ha⟩).mp (h c hc)
  · exact (Holds.congr fun a ha => hστ a ⟨c, hc, ha⟩).mpr (h c hc)

/-- Leaving out the constraints of other classes keeps the values of `e`, as long as the
constraints can be met at all. -/
theorem StoreInv.slice_values (h : StoreInv m added joins stores) {e : Expr} {slice : List Expr}
    (hslice : IsSlice m added e slice) (hsat : ∃ τ, Satisfies τ added) (v : APInt) :
    (∃ σ, Satisfies σ slice ∧ e.eval σ = v) ↔ ∃ σ, Satisfies σ added ∧ e.eval σ = v := by
  constructor
  · rintro ⟨σ, hσ, hv⟩
    obtain ⟨τ, hτ⟩ := hsat
    let near : Set KleeArray := {a | ∃ b ∈ e.symbolicRoots, (m.find a.ufe).1 = (m.find b.ufe).1}
    have hP : DependsOn (fun σ : Assignment => Satisfies σ slice ∧ e.eval σ = v) near := by
      intro σ τ hστ
      have hs := satisfies_dependsOn slice (x := σ) (y := τ) fun a ⟨c, hc, ha⟩ => hστ a ?_
      · have he : e.eval σ = e.eval τ := e.eval_congr fun a ha => hστ a ⟨a, ha, rfl⟩
        simp only at hs
        simp only [hs, he]
      · obtain ⟨hadd, a', ha', b, hb, hab⟩ := (hslice c).mp hc
        exact ⟨b, hb, ((h.classes.find_eq _ _).mpr (h.linked c hadd a ha a' ha')).trans hab⟩
    have hQ : DependsOn (fun σ : Assignment => ∀ c ∈ added, c ∉ slice → Holds σ c) nearᶜ := by
      intro σ τ hστ
      have hc : ∀ c ∈ added, c ∉ slice → (Holds σ c ↔ Holds τ c) := by
        intro c hadd hc
        refine Holds.congr fun a ha => hστ a fun ⟨b, hb, hab⟩ => hc ?_
        exact (hslice c).mpr ⟨hadd, a, ha, b, hb, hab⟩
      exact propext ⟨fun hh c hadd hn => (hc c hadd hn).mp (hh c hadd hn),
        fun hh c hadd hn => (hc c hadd hn).mpr (hh c hadd hn)⟩
    obtain ⟨ρ, ⟨hρ, hρv⟩, hρ'⟩ := exists_and_of_disjoint hP hQ disjoint_compl_right ⟨hσ, hv⟩
      (fun c hadd _ => hτ c hadd)
    refine ⟨ρ, fun c hadd => ?_, hρv⟩
    by_cases hc : c ∈ slice
    · exact hρ c hc
    · exact hρ' c hadd hc
  · rintro ⟨σ, hσ, hv⟩
    exact ⟨σ, fun c hc => hσ c ((hslice c).mp hc).1, hv⟩

theorem mem_getDepCons_foldl (h : StoreInv m added joins stores) (arrs : List KleeArray)
    (cons : List Expr) :
    let res := arrs.foldl (fun (p : List Expr × UFManager) (a : KleeArray) =>
      (p.1 ++ (p.2.find a.ufe).2.constraints (p.2.find a.ufe).1, (p.2.find a.ufe).2)) (cons, m)
    Compressed m res.2 ∧
      ∀ c, c ∈ res.1 ↔ c ∈ cons ∨ ∃ a ∈ arrs, c ∈ m.constraints (m.find a.ufe).1 := by
  induction arrs generalizing m cons with
  | nil => exact ⟨.refl h.classes.wf, by simp⟩
  | cons a arrs ih =>
    obtain ⟨-, hc, -⟩ := find_spec h.classes.wf a.ufe
    obtain ⟨hcomp, hmem⟩ := ih (h.compressed hc)
      (cons ++ (m.find a.ufe).2.constraints (m.find a.ufe).1)
    refine ⟨hc.trans hcomp, fun c => ?_⟩
    rw [List.foldl_cons, hmem]
    simp only [List.mem_append, hc.constraints, hc.find_eq h.classes.wf, List.mem_cons,
      exists_eq_or_imp, or_assoc]

/-- `getDepCons` returns the slice and only compresses paths on the way. -/
theorem StoreInv.getDepCons (h : StoreInv m added joins stores) (e : Expr) :
    Compressed m (m.getDepCons e).2 ∧ IsSlice m added e (m.getDepCons e).1 := by
  obtain ⟨hcomp, hmem⟩ := mem_getDepCons_foldl h (findSymbolicObjects e) []
  refine ⟨hcomp, fun c => (hmem c).trans ?_⟩
  simp only [List.not_mem_nil, false_or, mem_findSymbolicObjects, h.mem_constraints_iff]
  constructor
  · rintro ⟨b, hb, hadd, a, ha, hab⟩
    exact ⟨hadd, a, ha, b, hb, hab⟩
  · rintro ⟨hadd, a, ha, b, hb, hab⟩
    exact ⟨b, hb, hadd, a, ha, hab⟩

/-- Reading the elements themselves is enough when each representative that holds a
constraint is the element of one of the arrays. -/
def RepsRead (m : UFManager) (e : Expr) : Prop :=
  ∀ a ∈ findSymbolicObjects e, m.constraints (m.find a.ufe).1 = [] ∨
    ∃ b ∈ findSymbolicObjects e, b.ufe = (m.find a.ufe).1

instance (m : UFManager) (e : Expr) : Decidable (RepsRead m e) :=
  inferInstanceAs (Decidable (∀ a ∈ findSymbolicObjects e, _ ∨ ∃ b ∈ findSymbolicObjects e, _ = _))

theorem StoreInv.required (h : StoreInv m added joins stores) {e : Expr} (hreps : RepsRead m e) :
    IsSlice m added e (m.required e) := by
  intro c
  simp only [UFManager.required, List.mem_flatMap, mem_findSymbolicObjects]
  constructor
  · rintro ⟨b, hb, hc⟩
    obtain ⟨hadd, a, ha, hab⟩ := h.mem_constraints_iff.mp hc
    refine ⟨hadd, a, ha, b, hb, ?_⟩
    rw [← hab, find_find h.classes.wf]
  · rintro ⟨hadd, a, ha, b, hb, hab⟩
    have hmem : c ∈ m.constraints (m.find b.ufe).1 := h.mem_constraints_iff.mpr ⟨hadd, a, ha, hab⟩
    rcases hreps b ((mem_findSymbolicObjects e b).mpr hb) with hnil | ⟨b', hb', hrep⟩
    · rw [hnil] at hmem
      cases hmem
    · exact ⟨b', (mem_findSymbolicObjects e b').mp hb', by rw [hrep]; exact hmem⟩

end StoreInv

end UFManager

end TaseVerifier
