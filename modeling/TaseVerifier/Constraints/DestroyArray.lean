import TaseVerifier.Constraints.Classes

/-! The life of arrays. The constructor enters an array in the two union-find stores, and
the destructor takes its elements out again, which moves all later elements down by
one place. Handles and parents are places, and nothing adjusts them. -/

namespace TaseVerifier

open Library

namespace UFManager

/-- `remove_if` moves the elements of other arrays to the front, and `erase` takes one
element out, at the place where they end. When no element is of `x` that place is
`end()`, where `erase` is undefined. -/
def destroy (x : KleeArray) (m : UFManager) : Option UFManager :=
  let kept := m.elements.filter (·.arr ≠ x)
  if kept.length = m.size then none else some ⟨kept ++ m.elements.drop (kept.length + 1)⟩

/-- `find` as far as it reads inside the vector. -/
def findInside : ℕ → ℕ → UFManager → Option (ℕ × UFManager)
  | 0, i, m => if i < m.size then some (m.parent i, m) else none
  | n + 1, i, m =>
    if i < m.size then
      if i = m.parent i then some (m.parent i, m)
      else do
        let (r, m) ← findInside n (m.parent i) m
        some (r, m.setParent i r)
    else none

/-- `find` on both elements returns the same. -/
def Related (m : UFManager) (a b : ℕ) : Prop :=
  ∃ r, (findInside m.size a m).map Prod.fst = some r ∧
    (findInside m.size b m).map Prod.fst = some r

end UFManager

/-- The arrays that live, in the order of their construction, and the two stores. -/
structure ArrayStore where
  useCheatCons : Bool
  live : List KleeArray
  ufmanager : UFManager
  ufmanager_cheat : UFManager
  deriving DecidableEq

namespace ArrayStore

open UFManager

def init (useCheatCons : Bool) : ArrayStore := ⟨useCheatCons, [], empty, empty⟩

/-- `Array::Array`. -/
def construct (name : String) (size : ℕ) (constantValues : List APInt) (s : ArrayStore) :
    ArrayStore :=
  let (ufe, m) := s.ufmanager.create ⟨name, size, s.ufmanager.size, constantValues⟩
  let a : KleeArray := ⟨name, size, ufe, constantValues⟩
  { s with
    live := s.live ++ [a]
    ufmanager := m
    ufmanager_cheat :=
      if s.useCheatCons then (s.ufmanager_cheat.create a).2 else s.ufmanager_cheat }

/-- `Array::~Array`, for the array at place `i` of `live`. -/
def destruct (i : ℕ) (x : KleeArray) (s : ArrayStore) : Option ArrayStore := do
  let m ← s.ufmanager.destroy x
  let c ← s.ufmanager_cheat.destroy x
  some { s with live := s.live.eraseIdx i, ufmanager := m, ufmanager_cheat := c }

/-- What happens to the arrays and the stores. Arrays are given by their places in `live`;
`joinCheat` is given the two handles in the second store. -/
inductive Call where
  | construct (name : String) (size : ℕ) (constantValues : List APInt)
  | join (i j : ℕ)
  | store (i : ℕ) (e : Expr)
  | joinCheat (a b : ℕ)
  | destruct (i : ℕ)
  deriving DecidableEq

/-- A call on arrays that do not live is not made. -/
def step (s : ArrayStore) : Call → Option ArrayStore
  | .construct name size constantValues => some (s.construct name size constantValues)
  | .join i j =>
    match s.live[i]?, s.live[j]? with
    | some a, some b => some { s with ufmanager := (s.ufmanager.join a.ufe b.ufe).2 }
    | _, _ => some s
  | .store i e =>
    match s.live[i]? with
    | some a => some { s with ufmanager := (UFOp.store a.ufe e).apply s.ufmanager }
    | none => some s
  | .joinCheat a b => some { s with ufmanager_cheat := (s.ufmanager_cheat.join a b).2 }
  | .destruct i =>
    match s.live[i]? with
    | some x => s.destruct i x
    | none => some s

/-- The arrays that are left live have their elements and are related as before. -/
structure LeftAlone (s s' : ArrayStore) : Prop where
  handle : ∀ y ∈ s'.live, (s'.ufmanager.elements[y.ufe]?).map UFElement.arr = some y
  related : ∀ y ∈ s'.live, ∀ z ∈ s'.live,
    s'.ufmanager.Related y.ufe z.ufe ↔ s.ufmanager.Related y.ufe z.ufe

/-- No call of the run is undefined, and every destructor leaves the others alone. -/
def Harmless (s : ArrayStore) : List Call → Prop
  | [] => True
  | call :: calls =>
    match s.step call with
    | none => False
    | some s' => (∀ i, call = .destruct i → LeftAlone s s') ∧ Harmless s' calls

/-- A destructor runs for the array with the last element, which is no other's parent, and
the second store is in use. -/
def DestroysLast (s : ArrayStore) : Call → Prop
  | .destruct i => ∀ x, s.live[i]? = some x →
      s.useCheatCons = true ∧ x.ufe + 1 = s.ufmanager.size ∧
        ∀ k < x.ufe, s.ufmanager.parent k ≠ x.ufe
  | _ => True

/-- Every destructor of the run does. -/
def AllDestroyLast (s : ArrayStore) : List Call → Prop
  | [] => True
  | call :: calls => s.DestroysLast call ∧ ∀ s', s.step call = some s' → AllDestroyLast s' calls

end ArrayStore

namespace UFManager

/-! ### The arrays of the elements -/

/-- The array of each element. -/
def arrs (m : UFManager) : List KleeArray := m.elements.map UFElement.arr

section Arrs

variable (m : UFManager) (i k r : ℕ) (cs : List Expr)

theorem getElem?_arrs : m.arrs[i]? = (m.elements[i]?).map UFElement.arr := List.getElem?_map

@[simp] theorem length_arrs : m.arrs.length = m.size := List.length_map _

@[simp] theorem arrs_setParent : (m.setParent i r).arrs = m.arrs := by
  refine List.ext_getElem? fun j => ?_
  simp only [getElem?_arrs, setParent, List.getElem?_modify]
  cases m.elements[j]? <;> by_cases h : i = j <;> simp [h]

@[simp] theorem arrs_setConstraints : (m.setConstraints i cs).arrs = m.arrs := by
  refine List.ext_getElem? fun j => ?_
  simp only [getElem?_arrs, setConstraints, List.getElem?_modify]
  cases m.elements[j]? <;> by_cases h : i = j <;> simp [h]

@[simp] theorem arrs_findElement (n : ℕ) : (findElement n i m).2.arrs = m.arrs := by
  induction n generalizing i with
  | zero => rfl
  | succ n ih =>
    unfold findElement
    split_ifs
    · rfl
    · rw [arrs_setParent, ih]

@[simp] theorem arrs_find : (m.find i).2.arrs = m.arrs := arrs_findElement m i _

@[simp] theorem arrs_join : (m.join i k).2.arrs = m.arrs := by
  unfold join
  simp only
  split_ifs <;> simp [moveConstraints]

@[simp] theorem arrs_push (e : Expr) : (m.push i e).arrs = m.arrs := by simp [push]

@[simp] theorem arrs_create (x : KleeArray) : (m.create x).2.arrs = m.arrs ++ [x] := by
  simp [create, arrs]

theorem arrs_eraseIdx : (UFManager.mk (m.elements.eraseIdx k)).arrs = m.arrs.eraseIdx k :=
  (List.eraseIdx_map _ _ _).symm

end Arrs

/-! ### Reading inside the vector -/

section Inside

variable {m : UFManager}

/-- In a forest the search does not leave the vector. -/
theorem findInside_eq (hm : m.Wf) {i : ℕ} (hi : i < m.size) (n : ℕ) :
    findInside n i m = some (findElement n i m) := by
  induction n generalizing i with
  | zero => exact if_pos hi
  | succ n ih =>
    unfold findInside findElement
    rw [if_pos hi]
    split_ifs
    · rfl
    · rw [ih (hm.parent_lt i hi)]
      rfl

theorem related_iff (hm : m.Wf) {a b : ℕ} (ha : a < m.size) (hb : b < m.size) :
    m.Related a b ↔ (m.find a).1 = (m.find b).1 := by
  rw [Related, findInside_eq hm ha, findInside_eq hm hb]
  constructor
  · rintro ⟨r, h₁, h₂⟩
    exact (Option.some.inj h₁).trans (Option.some.inj h₂).symm
  · exact fun h => ⟨_, rfl, congrArg some h.symm⟩

/-- A search that follows a parent outside the vector is undefined. -/
theorem not_related_of_parent {a : ℕ} (ha : a < m.size) (hp : m.size ≤ m.parent a) :
    ¬ m.Related a a := by
  rintro ⟨r, h, -⟩
  obtain ⟨n, hn⟩ := Nat.exists_eq_add_one.mpr (Nat.zero_lt_of_lt ha)
  have hout : ∀ n, findInside n (m.parent a) m = none := fun n => by
    cases n <;> exact if_neg (by omega)
  rw [hn, findInside, if_pos ha, if_neg (by omega), hout] at h
  cases h

/-! ### Taking an element out -/

/-- Among values that differ, the value at a place goes with the place. -/
theorem filter_ne_eq_eraseIdx {α β : Type} [DecidableEq β] {f : α → β} {l : List α}
    (hnd : (l.map f).Nodup) {k : ℕ} (hk : k < l.length) :
    l.filter (f · ≠ f l[k]) = l.eraseIdx k := by
  induction l generalizing k with
  | nil => exact absurd hk (Nat.not_lt_zero k)
  | cons a l ih =>
    obtain ⟨ha, hl⟩ := List.nodup_cons.mp hnd
    cases k with
    | zero =>
      rw [List.getElem_cons_zero, List.filter_cons_of_neg (by simp)]
      refine List.filter_eq_self.mpr fun e he => decide_eq_true fun h => ha ?_
      exact List.mem_map.mpr ⟨e, he, h⟩
    | succ k =>
      have hk : k < l.length := Nat.lt_of_succ_lt_succ hk
      have hne : f a ≠ f l[k] := fun h =>
        ha (List.mem_map.mpr ⟨l[k], List.getElem_mem hk, h.symm⟩)
      have hpos : decide (f a ≠ f l[k]) = true := decide_eq_true hne
      rw [List.getElem_cons_succ, List.filter_cons, if_pos hpos, ih hl hk,
        List.eraseIdx_cons_succ]

theorem destroy_of_notMem {x : KleeArray} (hx : x ∉ m.arrs) : m.destroy x = none := by
  have hkept : m.elements.filter (·.arr ≠ x) = m.elements := by
    refine List.filter_eq_self.mpr fun e he => decide_eq_true fun h => hx ?_
    exact List.mem_map.mpr ⟨e, he, h⟩
  rw [destroy, hkept]
  exact if_pos rfl

theorem destroy_of_getElem? (hnd : m.arrs.Nodup) {x : KleeArray} {k : ℕ}
    (hk : m.arrs[k]? = some x) : m.destroy x = some ⟨m.elements.eraseIdx k⟩ := by
  rw [getElem?_arrs, Option.map_eq_some_iff] at hk
  obtain ⟨e, he, rfl⟩ := hk
  obtain ⟨hlt, rfl⟩ := List.getElem?_eq_some_iff.mp he
  have hkept : m.elements.filter (·.arr ≠ m.elements[k].arr) = m.elements.eraseIdx k :=
    filter_ne_eq_eraseIdx hnd hlt
  have hlen := List.length_eraseIdx_of_lt hlt
  have hpos : 0 < m.size := Nat.zero_lt_of_lt hlt
  rw [destroy, hkept]
  simp only [hlen]
  rw [if_neg (by unfold size at hpos ⊢; omega), List.drop_of_length_le (by omega),
    List.append_nil]

section Pop

variable {k : ℕ} (hm : m.Wf) (hk : k + 1 = m.size) (hp : ∀ i < k, m.parent i ≠ k)

include hk in
theorem size_pop : (UFManager.mk (m.elements.eraseIdx k)).size = k := by
  unfold size at hk ⊢
  rw [List.length_eraseIdx_of_lt (by omega)]
  omega

include hk in
theorem parent_pop (i : ℕ) :
    (UFManager.mk (m.elements.eraseIdx k)).parent i = if i < k then m.parent i else i := by
  split_ifs with hi
  · rw [parent, parent, List.getElem?_eraseIdx_of_lt hi]
  · exact parent_of_size_le (by rw [size_pop hk]; omega)

include hm hk hp

/-- A path between other elements does not pass the last one. -/
theorem rootOf_pop {i r : ℕ} (h : RootOf m.parent i r) (hi : i < k) :
    RootOf (UFManager.mk (m.elements.eraseIdx k)).parent i r := by
  induction h with
  | @root r hr => exact .root (by rw [parent_pop hk, if_pos hi, hr])
  | @step i r hne _ ih =>
    have hlt := hm.parent_lt i (by omega)
    have hne' := hp i hi
    have hpar : (UFManager.mk (m.elements.eraseIdx k)).parent i = m.parent i := by
      rw [parent_pop hk, if_pos hi]
    exact .step (by rwa [hpar]) (by rw [hpar]; exact ih (by omega))

theorem wf_pop : (UFManager.mk (m.elements.eraseIdx k)).Wf where
  parent_lt i hi := by
    rw [size_pop hk] at hi ⊢
    rw [parent_pop hk, if_pos hi]
    have := hm.parent_lt i (by omega)
    have := hp i hi
    omega
  rooted i := by
    by_cases hi : i < k
    · obtain ⟨r, hr⟩ := hm.rooted i
      exact ⟨r, rootOf_pop hm hk hp hr hi⟩
    · exact ⟨i, .root (by rw [parent_pop hk, if_neg hi])⟩
  rank_zero i := by
    by_cases hi : i < k
    · have := hm.rank_zero i
      rwa [rank, List.getElem?_eraseIdx_of_lt hi]
    · have hnone : (m.elements.eraseIdx k)[i]? = none :=
        List.getElem?_eq_none ((size_pop hk).le.trans (not_lt.mp hi))
      rw [rank, hnone]
      rfl

theorem related_pop {a b : ℕ} (ha : a < k) (hb : b < k) :
    (UFManager.mk (m.elements.eraseIdx k)).Related a b ↔ m.Related a b := by
  have hwf := wf_pop hm hk hp
  have hfind : ∀ i < k, ((UFManager.mk (m.elements.eraseIdx k)).find i).1 = (m.find i).1 :=
    fun i hi => (find_eq_iff hwf _ _).mpr (rootOf_pop hm hk hp (find_spec hm i).1 hi)
  rw [related_iff hwf (by rwa [size_pop hk]) (by rwa [size_pop hk]),
    related_iff hm (by omega) (by omega), hfind a ha, hfind b hb]

end Pop

end Inside

end UFManager

namespace ArrayStore

open UFManager

/-- What runs keep as long as every destructor is harmless: the arrays that live are those
of the elements, in their order, and each handle is the place of the array. -/
structure Inv (s : ArrayStore) : Prop where
  wf : s.ufmanager.Wf
  live : s.ufmanager.arrs = s.live
  handle : ∀ (k : ℕ) (a : KleeArray), s.live[k]? = some a → a.ufe = k
  cheat : s.useCheatCons = true → s.ufmanager_cheat.arrs = s.live
  unused : s.useCheatCons = false → s.ufmanager_cheat.arrs = []

theorem Inv.init (useCheatCons : Bool) : Inv (init useCheatCons) where
  wf := classes_empty.wf
  live := rfl
  handle := nofun
  cheat _ := rfl
  unused _ := rfl

section Step

variable {s s' : ArrayStore} (h : Inv s)

include h

theorem Inv.size : s.ufmanager.size = s.live.length := by rw [← length_arrs, h.live]

theorem Inv.ufe_lt {i : ℕ} {a : KleeArray} (ha : s.live[i]? = some a) :
    a.ufe < s.ufmanager.size := by
  rw [h.handle i a ha, h.size]
  exact (List.getElem?_eq_some_iff.mp ha).1

theorem Inv.nodup : s.live.Nodup := by
  rw [List.nodup_iff_getElem?_ne_getElem?]
  intro i j hij hj heq
  have hj' := List.getElem?_eq_getElem hj
  have := h.handle j _ hj'
  have := h.handle i _ (heq.trans hj')
  omega

theorem Inv.own {y : KleeArray} (hy : y ∈ s.live) :
    (s.ufmanager.elements[y.ufe]?).map UFElement.arr = some y := by
  obtain ⟨k, hk⟩ := List.mem_iff_getElem?.mp hy
  rw [← getElem?_arrs, h.live, h.handle k y hk, hk]

theorem Inv.construct (name : String) (size : ℕ) (constantValues : List APInt) :
    Inv (s.construct name size constantValues) where
  wf := (create_spec h.wf _).1
  live := by
    rw [ArrayStore.construct, arrs_create, h.live]
    rfl
  handle k a ha := by
    rw [ArrayStore.construct, List.getElem?_append] at ha
    split_ifs at ha with hk
    · exact h.handle k a ha
    · obtain ⟨hlt, rfl⟩ := List.getElem?_eq_some_iff.mp ha
      have hone : k - s.live.length < 1 := hlt
      rw [List.getElem_singleton]
      exact h.size.trans (by omega)
  cheat hc := by
    have hc : s.useCheatCons = true := hc
    simp only [ArrayStore.construct]
    rw [if_pos hc, arrs_create, h.cheat hc]
  unused hc := by
    have hc : s.useCheatCons = false := hc
    simp only [ArrayStore.construct]
    rw [if_neg (Bool.eq_false_iff.mp hc), h.unused hc]

theorem Inv.setStore {m : UFManager} (hm : m.Wf) (harrs : m.arrs = s.ufmanager.arrs) :
    Inv { s with ufmanager := m } :=
  ⟨hm, harrs.trans h.live, h.handle, h.cheat, h.unused⟩

theorem Inv.wf_join {a b : ℕ} (ha : a < s.ufmanager.size) (hb : b < s.ufmanager.size) :
    (s.ufmanager.join a b).2.Wf := by
  by_cases hab : (s.ufmanager.find a).1 = (s.ufmanager.find b).1
  · exact (join_of_eq h.wf hab).2.1.wf
  · exact (join_of_ne h.wf ha hb hab).2.wf

/-- Both stores have one element of an array that lives, as long as the second is in use. -/
theorem Inv.destruct_eq {i : ℕ} {x : KleeArray} (hx : s.live[i]? = some x) :
    s.destruct i x = if s.useCheatCons then
      some { s with
        live := s.live.eraseIdx i
        ufmanager := ⟨s.ufmanager.elements.eraseIdx i⟩
        ufmanager_cheat := ⟨s.ufmanager_cheat.elements.eraseIdx i⟩ } else none := by
  have hm := destroy_of_getElem? (m := s.ufmanager) (by rw [h.live]; exact h.nodup)
    (by rw [h.live]; exact hx)
  rw [destruct, hm]
  split_ifs with hc
  · have hd := destroy_of_getElem? (m := s.ufmanager_cheat) (by rw [h.cheat hc]; exact h.nodup)
      (by rw [h.cheat hc]; exact hx)
    simp only [hd, bind, Option.bind]
  · have hempty := h.unused (Bool.eq_false_iff.mpr hc)
    have hd := destroy_of_notMem (m := s.ufmanager_cheat) (x := x) (by rw [hempty]; simp)
    simp only [hd, bind, Option.bind]

/-- The element of the array is the last and no parent: taking it out keeps the invariant. -/
theorem Inv.destruct {i : ℕ} (hlast : i + 1 = s.ufmanager.size)
    (hparent : ∀ k < i, s.ufmanager.parent k ≠ i) :
    Inv { s with
      live := s.live.eraseIdx i
      ufmanager := ⟨s.ufmanager.elements.eraseIdx i⟩
      ufmanager_cheat := ⟨s.ufmanager_cheat.elements.eraseIdx i⟩ } where
  wf := wf_pop h.wf hlast hparent
  live := (arrs_eraseIdx _ i).trans (congrArg (List.eraseIdx · i) h.live)
  handle k a ha := by
    rw [List.getElem?_eraseIdx] at ha
    split_ifs at ha with hk
    · exact h.handle k a ha
    · have hlt := (List.getElem?_eq_some_iff.mp ha).1
      have := h.size
      omega
  cheat hc := (arrs_eraseIdx _ i).trans (congrArg (List.eraseIdx · i) (h.cheat hc))
  unused hc := (arrs_eraseIdx _ i).trans (congrArg (List.eraseIdx · i) (h.unused hc))

/-- A call other than a harmful destructor keeps the invariant. -/
theorem Inv.step_ok {call : Call} (hok : s.DestroysLast call) :
    ∃ s', s.step call = some s' ∧ Inv s' ∧ ∀ i, call = .destruct i → LeftAlone s s' := by
  cases call with
  | construct name size constantValues => exact ⟨_, rfl, h.construct name size constantValues, nofun⟩
  | joinCheat a b =>
    have harrs := arrs_join s.ufmanager_cheat a b
    exact ⟨_, rfl, ⟨h.wf, h.live, h.handle, fun hc => harrs.trans (h.cheat hc),
      fun hc => harrs.trans (h.unused hc)⟩, nofun⟩
  | join i j =>
    simp only [step]
    cases ha : s.live[i]? with
    | none => exact ⟨_, rfl, h, nofun⟩
    | some a =>
      cases hb : s.live[j]? with
      | none => exact ⟨_, rfl, h, nofun⟩
      | some b =>
        have hwf := h.wf_join (h.ufe_lt ha) (h.ufe_lt hb)
        exact ⟨_, rfl, h.setStore hwf (arrs_join _ _ _), nofun⟩
  | store i e =>
    simp only [step]
    cases ha : s.live[i]? with
    | none => exact ⟨_, rfl, h, nofun⟩
    | some a =>
      have hwf := wf_push (find_spec h.wf a.ufe).2.1.wf (s.ufmanager.find a.ufe).1 e
      exact ⟨_, rfl, h.setStore hwf ((arrs_push _ _ _).trans (arrs_find _ _)), nofun⟩
  | destruct i =>
    simp only [step]
    cases hx : s.live[i]? with
    | none =>
      have halone : LeftAlone s s := ⟨fun y hy => h.own hy, fun _ _ _ _ => .rfl⟩
      exact ⟨_, rfl, h, fun _ _ => halone⟩
    | some x =>
      obtain ⟨hcheat, hlast, hparent⟩ := hok x hx
      rw [h.handle i x hx] at hlast hparent
      have hinv := h.destruct hlast hparent
      simp only [h.destruct_eq hx, if_pos hcheat]
      refine ⟨_, rfl, hinv, fun _ _ => ⟨fun y hy => hinv.own hy, fun y hy z hz => ?_⟩⟩
      have hlt : ∀ y ∈ s.live.eraseIdx i, y.ufe < i := by
        intro y hy
        obtain ⟨k, hk⟩ := List.mem_iff_getElem?.mp hy
        have := hinv.ufe_lt hk
        rwa [size_pop hlast] at this
      exact related_pop h.wf hlast hparent (hlt y hy) (hlt z hz)

/-- Any other destructor is undefined or harms an array that lives. -/
theorem Inv.step_not_ok {i : ℕ} (hok : ¬ s.DestroysLast (.destruct i)) :
    ∀ s', s.step (.destruct i) = some s' → ¬ LeftAlone s s' := by
  intro s' hs halone
  obtain ⟨x, hx, hnot⟩ : ∃ x, s.live[i]? = some x ∧ ¬ (s.useCheatCons = true ∧
      x.ufe + 1 = s.ufmanager.size ∧ ∀ k < x.ufe, s.ufmanager.parent k ≠ x.ufe) := by
    simpa [DestroysLast] using hok
  rw [h.handle i x hx] at hnot
  simp only [step, hx, h.destruct_eq hx] at hs
  split_ifs at hs with hcheat
  cases hs
  by_cases hlast : i + 1 = s.ufmanager.size
  · -- an element has the destroyed one as its parent, and a search from it leaves the vector
    obtain ⟨k, hk, hparent⟩ : ∃ k < i, s.ufmanager.parent k = i := by
      by_contra hno
      exact hnot ⟨hcheat, hlast, fun k hk hp => hno ⟨k, hk, hp⟩⟩
    have hksize : k < s.ufmanager.size := by omega
    obtain ⟨y, hy⟩ : ∃ y, s.live[k]? = some y :=
      ⟨_, List.getElem?_eq_getElem (by rwa [← h.size])⟩
    have hmem : y ∈ s.live.eraseIdx i :=
      List.mem_of_getElem? ((List.getElem?_eraseIdx_of_lt hk).trans hy)
    have hrel := (halone.related y hmem y hmem).mpr (by
      rw [h.handle k y hy, related_iff h.wf hksize hksize])
    rw [h.handle k y hy] at hrel
    refine not_related_of_parent ?_ ?_ hrel
    · rwa [size_pop hlast]
    · rw [size_pop hlast, parent_pop hlast, if_pos hk, hparent]
  · -- the handle of the next array is the place of the one after it
    have hi := (List.getElem?_eq_some_iff.mp hx).1
    have hsize := h.size
    obtain ⟨y, hy⟩ : ∃ y, s.live[i + 1]? = some y :=
      ⟨_, List.getElem?_eq_getElem (by omega)⟩
    have hmem : y ∈ s.live.eraseIdx i :=
      List.mem_of_getElem? ((List.getElem?_eraseIdx_of_ge (le_refl i)).trans hy)
    have hhandle := halone.handle y hmem
    rw [h.handle _ y hy, ← getElem?_arrs, arrs_eraseIdx, h.live,
      List.getElem?_eraseIdx_of_ge (Nat.le_succ i)] at hhandle
    have := h.handle _ y hhandle
    have := h.handle _ y hy
    omega

end Step

/-- In a run, no destructor is undefined or harms another array exactly when each runs for
the array with the last element, no other element's parent, and `useCheatCons` is on. -/
theorem harmless_iff (useCheatCons : Bool) (calls : List Call) :
    Harmless (init useCheatCons) calls ↔ AllDestroyLast (init useCheatCons) calls := by
  have hrun : ∀ (calls : List Call) {s}, Inv s → (Harmless s calls ↔ AllDestroyLast s calls) := by
    intro calls
    induction calls with
    | nil => exact fun _ => .rfl
    | cons call calls ih =>
      intro s h
      by_cases hok : s.DestroysLast call
      · obtain ⟨s', hs', h', halone⟩ := h.step_ok hok
        simp only [Harmless, AllDestroyLast, hs', hok, true_and, Option.some.injEq]
        constructor
        · rintro ⟨-, hrest⟩ _ rfl
          exact (ih h').mp hrest
        · exact fun hrest => ⟨halone, (ih h').mpr (hrest s' rfl)⟩
      · simp only [Harmless, AllDestroyLast, hok, false_and, iff_false]
        cases call with
        | destruct i =>
          cases hs : s.step (.destruct i) with
          | none => exact id
          | some s' => exact fun hharm => h.step_not_ok hok s' hs (hharm.1 i rfl)
        | _ => exact absurd trivial hok
  exact hrun calls (Inv.init useCheatCons)

/-- With two arrays, the first one's destructor leaves the second with a handle outside the
vector. -/
theorem destruct_first_harms :
    ¬ Harmless (init true) [.construct "a" 1 [], .construct "b" 1 [], .destruct 0] := by
  intro h
  obtain ⟨-, -, h, -⟩ := h
  exact absurd ((h 0 rfl).handle ⟨"b", 1, 1, []⟩ (by decide)) (by decide)

end ArrayStore

end TaseVerifier
