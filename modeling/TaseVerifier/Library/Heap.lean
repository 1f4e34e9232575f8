import Mathlib.Data.List.Sort

/-! Max-heaps in level order, and the heap algorithms and the sort of the C++ standard
library by their documented effects: they permute the range, and which heap they leave, or
in which order equal elements, is not said. -/

namespace TaseVerifier.Library

variable {α P : Type} [LinearOrder P]

/-- No element is above its parent. -/
def IsHeap (key : α → P) (l : List α) : Prop :=
  ∀ j, 0 < j → ∀ a ∈ l[(j - 1) / 2]?, ∀ b ∈ l[j]?, key b ≤ key a

/-- The elements can be arranged as a heap in no other way. -/
def OnlyHeap (key : α → P) (l : List α) : Prop := ∀ l', l'.Perm l → IsHeap key l' → l' = l

/-- `std::make_heap`, `std::push_heap` and `std::pop_heap` on whole ranges. -/
structure HeapAlgorithms (key : α → P) where
  make_heap : List α → List α
  make_heap_perm : ∀ l, (make_heap l).Perm l
  make_heap_isHeap : ∀ l, IsHeap key (make_heap l)
  /-- The last element is added to the heap before it. -/
  push_heap : List α → List α
  push_heap_perm : ∀ l, (push_heap l).Perm l
  push_heap_isHeap : ∀ l a, IsHeap key l → IsHeap key (push_heap (l ++ [a]))
  /-- The first element goes to the end, behind a heap of the others. -/
  pop_heap : List α → List α
  pop_heap_spec : ∀ a l, IsHeap key (a :: l) →
    ∃ l', pop_heap (a :: l) = l' ++ [a] ∧ l'.Perm l ∧ IsHeap key l'

/-- `std::sort` of whole ranges, greatest first. -/
structure SortAlgorithm (key : α → P) where
  sort : List α → List α
  sort_perm : ∀ l, (sort l).Perm l
  sort_sorted : ∀ l, (sort l).Pairwise fun a b => key b ≤ key a

variable {key : α → P}

theorem isHeap_nil : IsHeap key [] := by
  intro j _ a ha
  cases ha

theorem HeapAlgorithms.make_heap_eq (alg : HeapAlgorithms key) {l : List α}
    (h : OnlyHeap key l) : alg.make_heap l = l :=
  h _ (alg.make_heap_perm l) (alg.make_heap_isHeap l)

/-- The front of a heap is a greatest element. -/
theorem IsHeap.le_front {a : α} {l : List α} (h : IsHeap key (a :: l)) {b : α}
    (hb : b ∈ a :: l) : key b ≤ key a := by
  obtain ⟨j, hj⟩ := List.mem_iff_getElem?.mp hb
  induction j using Nat.strong_induction_on generalizing b with
  | _ j ih =>
    obtain rfl | hpos := Nat.eq_zero_or_pos j
    · obtain rfl : a = b := by simpa using hj
      exact le_refl _
    · have hlt : (j - 1) / 2 < j := by omega
      have hin : (j - 1) / 2 < (a :: l).length :=
        hlt.trans (List.getElem?_eq_some_iff.mp hj).1
      have hp := List.getElem?_eq_getElem hin
      exact (h j hpos _ hp b hj).trans (ih _ hlt (List.getElem_mem hin) hp)

theorem onlyHeap_pair {a b : α} (h : key b < key a) : OnlyHeap key [a, b] := by
  intro l' hperm hheap
  obtain ⟨x, y, rfl⟩ := List.length_eq_two.mp hperm.length_eq
  obtain rfl | hx := List.mem_cons.mp (hperm.subset List.mem_cons_self)
  · rw [List.perm_singleton.mp hperm.cons_inv]
  · obtain rfl := List.mem_singleton.mp hx
    obtain hy := List.perm_singleton.mp (hperm.trans (.swap x a [])).cons_inv
    obtain rfl : y = a := List.singleton_inj.mp hy
    exact absurd (hheap 1 Nat.one_pos _ rfl _ rfl) (not_le.mpr h)

theorem isHeap_of_pairwise {l : List α} (h : l.Pairwise fun a b => key b ≤ key a) :
    IsHeap key l := by
  intro j hj a ha b hb
  obtain ⟨hi, rfl⟩ := List.getElem?_eq_some_iff.mp ha
  obtain ⟨hj', rfl⟩ := List.getElem?_eq_some_iff.mp hb
  exact List.pairwise_iff_getElem.mp h _ _ hi hj' (by omega)

/-- Insertion sort keeps equal elements in order. -/
def insertionSort (key : α → P) : SortAlgorithm key where
  sort := List.insertionSort fun a b => key b ≤ key a
  sort_perm := fun l => List.perm_insertionSort _ l
  sort_sorted := fun l => by
    have htotal : Std.Total fun a b : α => key b ≤ key a := ⟨fun a b => le_total (key b) (key a)⟩
    have htrans : IsTrans α fun a b => key b ≤ key a := ⟨fun _ _ _ hab hbc => hbc.trans hab⟩
    exact List.pairwise_insertionSort _ l

/-- The heap algorithms that leave the range sorted. -/
def SortAlgorithm.heap (s : SortAlgorithm key) : HeapAlgorithms key where
  make_heap := s.sort
  make_heap_perm := s.sort_perm
  make_heap_isHeap := fun l => isHeap_of_pairwise (s.sort_sorted l)
  push_heap := s.sort
  push_heap_perm := s.sort_perm
  push_heap_isHeap := fun l a _ => isHeap_of_pairwise (s.sort_sorted (l ++ [a]))
  pop_heap := fun
    | [] => []
    | a :: l => s.sort l ++ [a]
  pop_heap_spec := fun _ l _ => ⟨_, rfl, s.sort_perm l, isHeap_of_pairwise (s.sort_sorted l)⟩

/-- Exactly those ranges are left as they are by every library. -/
theorem onlyHeap_iff [DecidableEq α] {l : List α} :
    OnlyHeap key l ↔ ∀ alg : HeapAlgorithms key, alg.make_heap l = l := by
  refine ⟨fun h alg => alg.make_heap_eq h, fun h l' hperm hheap => ?_⟩
  let base := (insertionSort key).heap
  -- a library may arrange this one range as `l'`
  let alg : HeapAlgorithms key := { base with
    make_heap := fun r => if r = l then l' else base.make_heap r
    make_heap_perm := fun r => by
      split
      next hr => exact hr ▸ hperm
      next => exact base.make_heap_perm r
    make_heap_isHeap := fun r => by
      split
      next => exact hheap
      next => exact base.make_heap_isHeap r }
  have hl := h alg
  rwa [show alg.make_heap l = l' from if_pos rfl] at hl

end TaseVerifier.Library
