import Mathlib.Data.List.Pairwise
import Mathlib.Order.Defs.LinearOrder
import Mathlib.Order.Bounds.Basic
import Mathlib.Logic.Function.Basic

/-! Lists of values in the strict order of their keys, and the finite map such a list holds.
A list that is the in-order walk of a search tree has the form `l ++ x :: r`; a key either
belongs to the part before `x`, or is the key of `x`, or belongs to the part after it. -/

namespace TaseVerifier.Library

namespace SortedKeys

variable {K V : Type*} [LinearOrder K] (key : V → K)

def Sorted (l : List V) : Prop := l.Pairwise fun a b => key a < key b

def below (k : K) (l : List V) : List V := l.filter (key · < k)

def above (k : K) (l : List V) : List V := l.filter (k < key ·)

def atMost (k : K) (l : List V) : List V := l.filter (key · ≤ k)

def atLeast (k : K) (l : List V) : List V := l.filter (k ≤ key ·)

def without (k : K) (l : List V) : List V := l.filter (key · ≠ k)

/-- The value bound to `k`. -/
def get (l : List V) (k : K) : Option V := l.find? (key · = k)

variable {key} {l r : List V} {x v : V} {k k' : K}

theorem sorted_node : Sorted key (l ++ x :: r) ↔
    (Sorted key l ∧ ∀ a ∈ l, key a < key x) ∧ Sorted key r ∧ ∀ b ∈ r, key x < key b := by
  simp only [Sorted, List.pairwise_append, List.pairwise_cons, List.mem_cons, forall_eq_or_imp]
  constructor
  · rintro ⟨hl, ⟨hxr, hr⟩, hlr⟩
    exact ⟨⟨hl, fun a ha => (hlr a ha).1⟩, hr, hxr⟩
  · rintro ⟨⟨hl, hlx⟩, hr, hxr⟩
    exact ⟨hl, ⟨hxr, hr⟩, fun a ha => ⟨hlx a ha, fun b hb => (hlx a ha).trans (hxr b hb)⟩⟩

theorem mem_get (h : Sorted key l) : get key l k = some v ↔ v ∈ l ∧ key v = k := by
  induction l with
  | nil => simp [get]
  | cons a l ih =>
    obtain ⟨ha, hl⟩ := List.pairwise_cons.mp h
    by_cases hk : key a = k
    · have hne : ∀ v ∈ l, key v ≠ k := fun v hv => hk ▸ (ha v hv).ne'
      simp only [get, List.find?_cons_of_pos, hk, decide_true, Option.some.injEq, List.mem_cons]
      constructor
      · rintro rfl; exact ⟨.inl rfl, hk⟩
      · rintro ⟨rfl | hv, hvk⟩
        · rfl
        · exact absurd hvk (hne v hv)
    · have hget : get key (a :: l) k = get key l k := by simp [get, hk]
      rw [hget, ih hl, List.mem_cons]
      constructor
      · exact fun ⟨hv, hvk⟩ => ⟨.inr hv, hvk⟩
      · rintro ⟨rfl | hv, hvk⟩
        · exact absurd hvk hk
        · exact ⟨hv, hvk⟩

/-- A key belongs to one entry. -/
theorem Sorted.eq_of_key_eq (hs : Sorted key l) (hx : x ∈ l) (hv : v ∈ l) (h : key x = key v) :
    x = v :=
  Option.some.inj (((mem_get hs).mpr ⟨hx, h⟩).symm.trans ((mem_get hs).mpr ⟨hv, rfl⟩))

/-! ### The parts of an in-order walk -/

section Node

variable (hs : Sorted key (l ++ x :: r))
include hs

theorem below_node_lt (hk : k < key x) : below key k (l ++ x :: r) = below key k l := by
  obtain ⟨-, -, hr⟩ := sorted_node.mp hs
  have hnil : r.filter (key · < k) = [] := by
    simpa using fun b hb => (hk.trans (hr b hb)).le
  simp [below, hk.le, hnil]

theorem below_node_gt (hk : key x < k) :
    below key k (l ++ x :: r) = l ++ x :: below key k r := by
  obtain ⟨⟨-, hl⟩, -, -⟩ := sorted_node.mp hs
  have hall : l.filter (key · < k) = l := by
    simpa using fun a ha => (hl a ha).trans hk
  simp [below, hk, hall]

theorem below_node_eq : below key (key x) (l ++ x :: r) = l := by
  obtain ⟨⟨-, hl⟩, -, hr⟩ := sorted_node.mp hs
  have hall : l.filter (key · < key x) = l := by simpa using hl
  have hnil : r.filter (key · < key x) = [] := by simpa using fun b hb => (hr b hb).le
  simp [below, hall, hnil]

theorem above_node_lt (hk : k < key x) :
    above key k (l ++ x :: r) = above key k l ++ x :: r := by
  obtain ⟨-, -, hr⟩ := sorted_node.mp hs
  have hall : r.filter (k < key ·) = r := by simpa using fun b hb => hk.trans (hr b hb)
  simp [above, hk, hall]

theorem above_node_gt (hk : key x < k) : above key k (l ++ x :: r) = above key k r := by
  obtain ⟨⟨-, hl⟩, -, -⟩ := sorted_node.mp hs
  have hnil : l.filter (k < key ·) = [] := by simpa using fun a ha => ((hl a ha).trans hk).le
  simp [above, hk.le, hnil]

theorem above_node_eq : above key (key x) (l ++ x :: r) = r := by
  obtain ⟨⟨-, hl⟩, -, hr⟩ := sorted_node.mp hs
  have hnil : l.filter (key x < key ·) = [] := by simpa using fun a ha => (hl a ha).le
  have hall : r.filter (key x < key ·) = r := by simpa using hr
  simp [above, hall, hnil]

theorem get_node_lt (hk : k < key x) : get key (l ++ x :: r) k = get key l k := by
  obtain ⟨-, -, hr⟩ := sorted_node.mp hs
  have hnone : r.find? (key · = k) = none := by
    simpa using fun b hb => (hk.trans (hr b hb)).ne'
  simp [get, hk.ne', hnone]

theorem get_node_gt (hk : key x < k) : get key (l ++ x :: r) k = get key r k := by
  obtain ⟨⟨-, hl⟩, -, -⟩ := sorted_node.mp hs
  have hnone : l.find? (key · = k) = none := by
    simpa using fun a ha => ((hl a ha).trans hk).ne
  simp [get, hk.ne, hnone]

theorem get_node_eq : get key (l ++ x :: r) (key x) = some x :=
  (mem_get hs).mpr ⟨by simp, rfl⟩

end Node

/-! ### A sorted list cut at a key -/

theorem split (hs : Sorted key l) (k : K) :
    below key k l ++ ((get key l k).toList ++ above key k l) = l := by
  induction l with
  | nil => rfl
  | cons x r ih =>
    have hr : Sorted key r := (List.pairwise_cons.mp hs).2
    rcases lt_trichotomy k (key x) with hk | rfl | hk
    · have hb := below_node_lt (l := []) hs hk
      have ha := above_node_lt (l := []) hs hk
      have hg := get_node_lt (l := []) hs hk
      simp only [List.nil_append] at hb ha hg
      rw [hb, ha, hg]
      simp [below, above, get]
    · have hb := below_node_eq (l := []) hs
      have ha := above_node_eq (l := []) hs
      have hg := get_node_eq (l := []) hs
      simp only [List.nil_append] at hb ha hg
      simp [hb, ha, hg]
    · have hb := below_node_gt (l := []) hs hk
      have ha := above_node_gt (l := []) hs hk
      have hg := get_node_gt (l := []) hs hk
      simp only [List.nil_append] at hb ha hg
      rw [hb, ha, hg, List.cons_append, ih hr]

/-- A filter that decides alike for all keys below `k`, and alike for all keys above `k`. -/
theorem filter_cut (hs : Sorted key l) (k : K) {p : K → Bool} {b e a : Bool}
    (hb : ∀ k' < k, p k' = b) (he : p k = e) (ha : ∀ k' > k, p k' = a) :
    (l.filter fun v => p (key v)) = (if b then below key k l else []) ++
      ((if e then (get key l k).toList else []) ++ if a then above key k l else []) := by
  have hparts {m : List V} {c : Bool} (hm : ∀ v ∈ m, p (key v) = c) :
      (m.filter fun v => p (key v)) = if c then m else [] := by
    cases c
    · simpa using hm
    · simpa using hm
  conv_lhs => rw [← split hs k]
  rw [List.filter_append, List.filter_append, hparts fun v hv => hb _ ?_, hparts fun v hv => ?_,
    hparts fun v hv => ha _ ?_]
  · simpa using (List.mem_filter.mp hv).2
  · rw [Option.mem_toList, mem_get hs] at hv
    rw [hv.2, he]
  · simpa using (List.mem_filter.mp hv).2

theorem atMost_eq (hs : Sorted key l) (k : K) :
    atMost key k l = below key k l ++ (get key l k).toList := by
  simpa [atMost] using filter_cut hs k (p := fun k' => k' ≤ k) (b := true) (e := true) (a := false)
    (by simpa using fun _ h => h.le) (by simp) (by simp)

theorem atLeast_eq (hs : Sorted key l) (k : K) :
    atLeast key k l = (get key l k).toList ++ above key k l := by
  simpa [atLeast] using filter_cut hs k (p := fun k' => k ≤ k') (b := false) (e := true) (a := true)
    (by simp) (by simp) (by simpa using fun _ h => h.le)

theorem without_eq (hs : Sorted key l) (k : K) :
    without key k l = below key k l ++ above key k l := by
  simpa [without] using filter_cut hs k (p := fun k' => k' ≠ k) (b := true) (e := false) (a := true)
    (by simpa using fun _ h => h.ne) (by simp) (by simpa using fun _ h => h.ne')

theorem atLeast_node_lt (hs : Sorted key (l ++ x :: r)) (hk : k < key x) :
    atLeast key k (l ++ x :: r) = atLeast key k l ++ x :: r := by
  rw [atLeast_eq hs, get_node_lt hs hk, above_node_lt hs hk, atLeast_eq (sorted_node.mp hs).1.1,
    List.append_assoc]

theorem atLeast_node_gt (hs : Sorted key (l ++ x :: r)) (hk : key x < k) :
    atLeast key k (l ++ x :: r) = atLeast key k r := by
  rw [atLeast_eq hs, get_node_gt hs hk, above_node_gt hs hk, atLeast_eq (sorted_node.mp hs).2.1]

theorem atLeast_node_eq (hs : Sorted key (l ++ x :: r)) :
    atLeast key (key x) (l ++ x :: r) = x :: r := by
  rw [atLeast_eq hs, get_node_eq hs, above_node_eq hs]
  rfl

/-! ### Updates -/

theorem sorted_splice (hs : Sorted key l) (hv : key v = k) :
    Sorted key (below key k l ++ v :: above key k l) := by
  subst hv
  refine sorted_node.mpr ⟨⟨hs.filter _, fun a ha => ?_⟩, hs.filter _, fun b hb => ?_⟩
  · simpa using (List.mem_filter.mp ha).2
  · simpa using (List.mem_filter.mp hb).2

theorem get_splice (hs : Sorted key l) (hv : key v = k) :
    get key (below key k l ++ v :: above key k l) = Function.update (get key l) k (some v) := by
  funext k'
  refine Option.ext fun u => ?_
  rw [mem_get (sorted_splice hs hv)]
  by_cases hk : k' = k
  · subst hv hk
    simp only [Function.update_self, List.mem_append, List.mem_cons, Option.some.injEq]
    constructor
    · rintro ⟨hu | rfl | hu, huv⟩
      · simp [below, huv] at hu
      · rfl
      · simp [above, huv] at hu
    · rintro rfl; exact ⟨.inr (.inl rfl), rfl⟩
  · rw [Function.update_of_ne hk, mem_get hs]
    refine and_congr_left fun huk => ?_
    subst huk hv
    simp only [below, above, List.mem_append, List.mem_cons, List.mem_filter, decide_eq_true_eq]
    constructor
    · rintro (hu | rfl | hu)
      · exact hu.1
      · exact absurd rfl hk
      · exact hu.1
    · intro hu
      rcases lt_or_gt_of_ne hk with h | h
      · exact .inl ⟨hu, h⟩
      · exact .inr (.inr ⟨hu, h⟩)

theorem sorted_without (hs : Sorted key l) : Sorted key (without key k l) := hs.filter _

theorem get_without (hs : Sorted key l) (k : K) :
    get key (without key k l) = Function.update (get key l) k none := by
  funext k'
  refine Option.ext fun u => ?_
  rw [mem_get (sorted_without hs)]
  by_cases hk : k' = k
  · subst hk
    simp [without]
  · rw [Function.update_of_ne hk, mem_get hs]
    refine and_congr_left fun huk => ?_
    simp [without, huk, hk]

/-! ### The two ends -/

theorem getLast_node : (l ++ x :: r).getLast? = r.getLast?.or (some x) := by
  rw [List.getLast?_append, List.getLast?_cons]
  cases r.getLast? <;> rfl

theorem head_eq_some (hs : Sorted key l) :
    l.head? = some v ↔ v ∈ l ∧ ∀ u ∈ l, key v ≤ key u := by
  cases l with
  | nil => simp
  | cons x r =>
    obtain ⟨hx, -⟩ := List.pairwise_cons.mp hs
    simp only [List.head?_cons, Option.some.injEq]
    constructor
    · rintro rfl
      exact ⟨List.mem_cons_self, List.forall_mem_cons.mpr ⟨le_rfl, fun u hu => (hx u hu).le⟩⟩
    · rintro ⟨hv, hle⟩
      rcases List.mem_cons.mp hv with rfl | hv
      · rfl
      · exact absurd (hx v hv) (hle x List.mem_cons_self).not_gt

theorem getLast_eq_some (hs : Sorted key l) :
    l.getLast? = some v ↔ v ∈ l ∧ ∀ u ∈ l, key u ≤ key v := by
  have hrev : Sorted (fun v => OrderDual.toDual (key v)) l.reverse := List.pairwise_reverse.mpr hs
  rw [List.getLast?_eq_head?_reverse, head_eq_some hrev]
  simp

/-- The first entry whose key meets `p` is the one with the least such key. -/
theorem head_filter (hs : Sorted key l) (p : K → Prop) [DecidablePred p] :
    (l.filter (p <| key ·)).head? = some v ↔
      get key l (key v) = some v ∧ IsLeast {k | (get key l k).isSome ∧ p k} (key v) := by
  rw [head_eq_some (hs.filter _), mem_get hs]
  simp only [IsLeast, lowerBounds, Option.isSome_iff_exists, mem_get hs, Set.mem_ofPred_eq,
    List.mem_filter, decide_eq_true_eq]
  constructor
  · rintro ⟨⟨hv, hp⟩, hle⟩
    exact ⟨⟨hv, trivial⟩, ⟨⟨v, hv, rfl⟩, hp⟩, by rintro _ ⟨⟨u, hu, rfl⟩, hpu⟩; exact hle u ⟨hu, hpu⟩⟩
  · rintro ⟨⟨hv, -⟩, ⟨-, hp⟩, hle⟩
    exact ⟨⟨hv, hp⟩, fun u hu => hle ⟨⟨u, hu.1, rfl⟩, hu.2⟩⟩

/-- The last entry whose key meets `p` is the one with the greatest such key. -/
theorem getLast_filter (hs : Sorted key l) (p : K → Prop) [DecidablePred p] :
    (l.filter (p <| key ·)).getLast? = some v ↔
      get key l (key v) = some v ∧ IsGreatest {k | (get key l k).isSome ∧ p k} (key v) := by
  rw [getLast_eq_some (hs.filter _), mem_get hs]
  simp only [IsGreatest, upperBounds, Option.isSome_iff_exists, mem_get hs, Set.mem_ofPred_eq,
    List.mem_filter, decide_eq_true_eq]
  constructor
  · rintro ⟨⟨hv, hp⟩, hle⟩
    exact ⟨⟨hv, trivial⟩, ⟨⟨v, hv, rfl⟩, hp⟩, by rintro _ ⟨⟨u, hu, rfl⟩, hpu⟩; exact hle u ⟨hu, hpu⟩⟩
  · rintro ⟨⟨hv, -⟩, ⟨-, hp⟩, hle⟩
    exact ⟨⟨hv, hp⟩, fun u hu => hle ⟨⟨u, hu.1, rfl⟩, hu.2⟩⟩

/-! ### Maps without their first or last entry -/

section Ends

variable (m : K → Option V)

open Classical in
/-- The value with the least key. -/
noncomputable def least : Option V :=
  if h : ∃ k, IsLeast {k | (m k).isSome} k then m h.choose else none

open Classical in
noncomputable def greatest : Option V :=
  if h : ∃ k, IsGreatest {k | (m k).isSome} k then m h.choose else none

open Classical in
noncomputable def withoutLeast (k : K) : Option V :=
  if IsLeast {k | (m k).isSome} k then none else m k

open Classical in
noncomputable def withoutGreatest (k : K) : Option V :=
  if IsGreatest {k | (m k).isSome} k then none else m k

end Ends

/-- The map's least and greatest entry are the list's first and last. -/
theorem isLeast_iff (hs : Sorted key l) :
    IsLeast {k | (get key l k).isSome} k ↔ ∃ v, l.head? = some v ∧ key v = k := by
  simp only [IsLeast, lowerBounds, Option.isSome_iff_exists, mem_get hs, Set.mem_ofPred_eq,
    head_eq_some hs]
  constructor
  · rintro ⟨⟨v, hv, rfl⟩, hle⟩
    exact ⟨v, ⟨hv, fun u hu => hle ⟨u, hu, rfl⟩⟩, rfl⟩
  · rintro ⟨v, ⟨hv, hle⟩, rfl⟩
    exact ⟨⟨v, hv, rfl⟩, by rintro _ ⟨u, hu, rfl⟩; exact hle u hu⟩

theorem isGreatest_iff (hs : Sorted key l) :
    IsGreatest {k | (get key l k).isSome} k ↔ ∃ v, l.getLast? = some v ∧ key v = k := by
  simp only [IsGreatest, upperBounds, Option.isSome_iff_exists, mem_get hs, Set.mem_ofPred_eq,
    getLast_eq_some hs]
  constructor
  · rintro ⟨⟨v, hv, rfl⟩, hle⟩
    exact ⟨v, ⟨hv, fun u hu => hle ⟨u, hu, rfl⟩⟩, rfl⟩
  · rintro ⟨v, ⟨hv, hle⟩, rfl⟩
    exact ⟨⟨v, hv, rfl⟩, by rintro _ ⟨u, hu, rfl⟩; exact hle u hu⟩

theorem least_get (hs : Sorted key l) : least (get key l) = l.head? := by
  rw [least]
  split_ifs with h
  · obtain ⟨v, hv, hk⟩ := (isLeast_iff hs).mp h.choose_spec
    rw [hv, ← hk, mem_get hs]
    exact ⟨List.mem_of_mem_head? hv, rfl⟩
  · cases hl : l.head? with
    | none => rfl
    | some v => exact absurd ⟨key v, (isLeast_iff hs).mpr ⟨v, hl, rfl⟩⟩ h

theorem greatest_get (hs : Sorted key l) : greatest (get key l) = l.getLast? := by
  rw [greatest]
  split_ifs with h
  · obtain ⟨v, hv, hk⟩ := (isGreatest_iff hs).mp h.choose_spec
    rw [hv, ← hk, mem_get hs]
    exact ⟨List.mem_of_getLast? hv, rfl⟩
  · cases hl : l.getLast? with
    | none => rfl
    | some v => exact absurd ⟨key v, (isGreatest_iff hs).mpr ⟨v, hl, rfl⟩⟩ h

theorem get_tail (hs : Sorted key (x :: l)) :
    get key l = withoutLeast (get key (x :: l)) := by
  have hwithout : without key (key x) (x :: l) = l := by
    rw [without_eq hs]
    exact congrArg₂ _ (below_node_eq (l := []) hs) (above_node_eq (l := []) hs)
  funext k
  rw [withoutLeast, isLeast_iff hs]
  conv_lhs => rw [← hwithout, get_without hs]
  by_cases hk : k = key x
  · simp [hk]
  · rw [Function.update_of_ne hk, if_neg]
    simpa [eq_comm] using hk

theorem get_dropLast (hs : Sorted key (l ++ [x])) :
    get key l = withoutGreatest (get key (l ++ [x])) := by
  have hwithout : without key (key x) (l ++ [x]) = l := by
    rw [without_eq hs]
    exact (congrArg₂ _ (below_node_eq hs) (above_node_eq hs)).trans (List.append_nil l)
  funext k
  rw [withoutGreatest, isGreatest_iff hs]
  conv_lhs => rw [← hwithout, get_without hs]
  by_cases hk : k = key x
  · simp [hk]
  · rw [Function.update_of_ne hk, if_neg]
    simpa [eq_comm] using hk

end SortedKeys

end TaseVerifier.Library
