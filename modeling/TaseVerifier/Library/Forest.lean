import Mathlib.Data.Finset.Card
import Mathlib.Data.Finset.Range
import Mathlib.Data.Nat.Find
import Mathlib.Logic.Function.Iterate
import Mathlib.Logic.Relation

/-! Forests given by parent pointers. A root is its own parent; redirecting a node to
its root changes no root, and redirecting a root to another root merges the two
trees. Merging trees along a sequence of pairs computes the equivalence closure of
the pairs. -/

namespace TaseVerifier.Library

variable {α : Type*} {p : α → α} {x y r s : α}

/-- Following the parents from `x` ends at the root `r`. -/
inductive RootOf (p : α → α) : α → α → Prop
  | root {r : α} : p r = r → RootOf p r r
  | step {x r : α} : p x ≠ x → RootOf p (p x) r → RootOf p x r

/-- Every node has a root. -/
def WellRooted (p : α → α) : Prop := ∀ x, ∃ r, RootOf p x r

theorem RootOf.isRoot (h : RootOf p x r) : p r = r := by
  induction h with
  | root h => exact h
  | step _ _ ih => exact ih

theorem RootOf.unique (h : RootOf p x r) (h' : RootOf p x s) : r = s := by
  induction h with
  | root hr =>
    cases h' with
    | root => rfl
    | step hne _ => exact absurd hr hne
  | step hne _ ih =>
    cases h' with
    | root hs => exact absurd hs hne
    | step _ h' => exact ih h'

theorem RootOf.eq_self (h : RootOf p x r) (hx : p x = x) : r = x :=
  h.unique (.root hx)

theorem RootOf.exists_iterate (h : RootOf p x r) : ∃ n, p^[n] x = r := by
  induction h with
  | root => exact ⟨0, rfl⟩
  | step _ _ ih =>
    obtain ⟨n, hn⟩ := ih
    exact ⟨n + 1, hn⟩

theorem rootOf_of_iterate {n : ℕ} (h : p^[n] x = r) (hr : p r = r) : RootOf p x r := by
  induction n generalizing x with
  | zero =>
    obtain rfl : x = r := h
    exact .root hr
  | succ n ih =>
    by_cases hx : p x = x
    · exact hx ▸ ih h
    · exact .step hx (ih h)

/-- In a finite closed set the root is reached in fewer steps than the set has
elements: a longer path would visit a node twice and could be cut short. -/
theorem RootOf.exists_iterate_lt (S : Finset α) (hS : ∀ y ∈ S, p y ∈ S) (hx : x ∈ S)
    (h : RootOf p x r) : ∃ n < S.card, p^[n] x = r := by
  classical
  have hex := h.exists_iterate
  have hmem : ∀ k, p^[k] x ∈ S := by
    intro k
    induction k with
    | zero => exact hx
    | succ k ih => rw [Function.iterate_succ_apply']; exact hS _ ih
  refine ⟨Nat.find hex, ?_, Nat.find_spec hex⟩
  by_contra hlt
  obtain ⟨i, hi, j, hj, hij, heq⟩ := Finset.exists_ne_map_eq_of_card_lt_of_maps_to
    (s := Finset.range (S.card + 1)) (t := S) (by simp) (f := fun k => p^[k] x)
    (fun k _ => hmem k)
  -- order the two visits, then skip the part between them
  have hcut : ∀ a b, a < b → b ≤ Nat.find hex → p^[a] x = p^[b] x → False := by
    intro a b hab hb he
    have hshort : p^[Nat.find hex - b + a] x = r := by
      rw [Function.iterate_add_apply, he, ← Function.iterate_add_apply, Nat.sub_add_cancel hb]
      exact Nat.find_spec hex
    exact Nat.find_min hex (by omega) hshort
  simp only [Finset.mem_range] at hi hj
  rcases Nat.lt_or_gt_of_ne hij with h1 | h1
  · exact hcut i j h1 (by omega) heq
  · exact hcut j i h1 (by omega) heq.symm

section Update

variable [DecidableEq α]

/-- Path compression keeps every root. -/
theorem RootOf.compress (hx : RootOf p x r) (hy : RootOf p y s) :
    RootOf (Function.update p x r) y s := by
  induction hy with
  | @root s hs =>
    refine .root ?_
    by_cases hsx : s = x
    · subst hsx
      rw [Function.update_self, hx.eq_self hs]
    · rw [Function.update_of_ne hsx, hs]
  | @step y s hne h ih =>
    by_cases hyx : y = x
    · subst hyx
      obtain rfl : r = s := hx.unique (.step hne h)
      have hry : r ≠ y := fun hr => hne (by rw [← hr]; exact h.isRoot)
      refine .step (by rwa [Function.update_self]) ?_
      rw [Function.update_self]
      exact .root (by rw [Function.update_of_ne hry, h.isRoot])
    · refine .step (by rwa [Function.update_of_ne hyx]) ?_
      rw [Function.update_of_ne hyx]
      exact ih

theorem rootOf_compress_iff (hp : WellRooted p) (hx : RootOf p x r) :
    RootOf (Function.update p x r) y s ↔ RootOf p y s := by
  refine ⟨fun h => ?_, hx.compress⟩
  obtain ⟨t, ht⟩ := hp y
  rwa [h.unique (hx.compress ht)]

theorem WellRooted.compress (hp : WellRooted p) (hx : RootOf p x r) :
    WellRooted (Function.update p x r) := fun y => by
  obtain ⟨s, hs⟩ := hp y
  exact ⟨s, hx.compress hs⟩

/-- Redirecting a root `x` to the root `r` keeps the other trees. -/
theorem RootOf.link_of_ne (hx : p x = x) (hy : RootOf p y s) (hs : s ≠ x) :
    RootOf (Function.update p x r) y s := by
  induction hy with
  | @root s h => exact .root (by rw [Function.update_of_ne hs, h])
  | @step y s hne h ih =>
    have hyx : y ≠ x := fun h' => hne (by rw [h', hx])
    refine .step (by rwa [Function.update_of_ne hyx]) ?_
    rw [Function.update_of_ne hyx]
    exact ih hs

/-- Redirecting a root `x` to the root `r` moves the tree of `x` under `r`. -/
theorem RootOf.link_self (hx : p x = x) (hr : p r = r) (hne : r ≠ x) (hy : RootOf p y s)
    (hs : s = x) : RootOf (Function.update p x r) y r := by
  have hroot : RootOf (Function.update p x r) r r :=
    .root (by rw [Function.update_of_ne hne, hr])
  have hstart : RootOf (Function.update p x r) x r := by
    refine .step (by rwa [Function.update_self]) ?_
    rw [Function.update_self]
    exact hroot
  induction hy with
  | root => rw [hs]; exact hstart
  | @step y s hne' h ih =>
    have hyx : y ≠ x := fun h' => hne' (by rw [h', hx])
    refine .step (by rwa [Function.update_of_ne hyx]) ?_
    rw [Function.update_of_ne hyx]
    exact ih hs

/-- Redirecting any node to a root leaves every node with a root. -/
theorem WellRooted.redirect (hp : WellRooted p) (hr : p r = r) (hne : r ≠ x) :
    WellRooted (Function.update p x r) := by
  intro y
  obtain ⟨s, hs⟩ := hp y
  have hroot : RootOf (Function.update p x r) r r :=
    .root (by rw [Function.update_of_ne hne, hr])
  have hstart : RootOf (Function.update p x r) x r := by
    refine .step (by rwa [Function.update_self]) ?_
    rw [Function.update_self]
    exact hroot
  induction hs with
  | @root s h =>
    by_cases hsx : s = x
    · exact ⟨r, hsx ▸ hstart⟩
    · exact ⟨s, .root (by rw [Function.update_of_ne hsx, h])⟩
  | @step y s hne' h ih =>
    by_cases hyx : y = x
    · exact ⟨r, hyx ▸ hstart⟩
    · obtain ⟨t, ht⟩ := ih
      refine ⟨t, .step (by rwa [Function.update_of_ne hyx]) ?_⟩
      rwa [Function.update_of_ne hyx]

end Update

/-- The equivalence generated by pairs. -/
def Connected (pairs : List (α × α)) : α → α → Prop := Relation.EqvGen fun a b => (a, b) ∈ pairs

theorem connected_mono {ps qs : List (α × α)} (h : ∀ q ∈ ps, q ∈ qs) (hc : Connected ps x y) :
    Connected qs x y :=
  Relation.EqvGen.mono (fun _ _ hab => h _ hab) _ _ hc

theorem connected_nil : Connected ([] : List (α × α)) x y ↔ x = y := by
  constructor
  · intro h
    induction h with
    | rel _ _ h => cases h
    | refl => rfl
    | symm _ _ _ ih => exact ih.symm
    | trans _ _ _ _ _ ih₁ ih₂ => exact ih₁.trans ih₂
  · rintro rfl
    exact .refl _

/-- One more pair connects what was connected to its two ends. -/
theorem connected_append {ps : List (α × α)} {a b : α} :
    Connected (ps ++ [(a, b)]) x y ↔ Connected ps x y ∨
      (Connected ps x a ∧ Connected ps b y) ∨ (Connected ps x b ∧ Connected ps a y) := by
  constructor
  · intro h
    induction h with
    | rel c d h =>
      rcases List.mem_append.mp h with h | h
      · exact .inl (.rel _ _ h)
      · obtain ⟨rfl, rfl⟩ : c = a ∧ d = b := by simpa using h
        exact .inr (.inl ⟨.refl _, .refl _⟩)
    | refl c => exact .inl (.refl _)
    | symm c d _ ih =>
      rcases ih with h | ⟨h₁, h₂⟩ | ⟨h₁, h₂⟩
      · exact .inl (.symm _ _ h)
      · exact .inr (.inr ⟨.symm _ _ h₂, .symm _ _ h₁⟩)
      · exact .inr (.inl ⟨.symm _ _ h₂, .symm _ _ h₁⟩)
    | trans c d e _ _ ih₁ ih₂ =>
      have htrans : ∀ {u v w : α}, Connected ps u v → Connected ps v w → Connected ps u w :=
        fun h h' => .trans _ _ _ h h'
      have hsymm : ∀ {u v : α}, Connected ps u v → Connected ps v u := fun h => .symm _ _ h
      rcases ih₁ with h | ⟨h₁, h₂⟩ | ⟨h₁, h₂⟩ <;> rcases ih₂ with k | ⟨k₁, k₂⟩ | ⟨k₁, k₂⟩
      · exact .inl (htrans h k)
      · exact .inr (.inl ⟨htrans h k₁, k₂⟩)
      · exact .inr (.inr ⟨htrans h k₁, k₂⟩)
      · exact .inr (.inl ⟨h₁, htrans h₂ k⟩)
      · exact .inr (.inl ⟨h₁, k₂⟩)
      · exact .inl (htrans h₁ k₂)
      · exact .inr (.inr ⟨h₁, htrans h₂ k⟩)
      · exact .inl (htrans h₁ k₂)
      · exact .inr (.inr ⟨h₁, k₂⟩)
  · have hsub : ∀ q ∈ ps, q ∈ ps ++ [(a, b)] := fun q hq => List.mem_append_left _ hq
    have hab : Connected (ps ++ [(a, b)]) a b := .rel _ _ (by simp)
    rintro (h | ⟨h₁, h₂⟩ | ⟨h₁, h₂⟩)
    · exact connected_mono hsub h
    · exact .trans _ _ _ (connected_mono hsub h₁) (.trans _ _ _ hab (connected_mono hsub h₂))
    · exact .trans _ _ _ (connected_mono hsub h₁)
        (.trans _ _ _ (.symm _ _ hab) (connected_mono hsub h₂))

end TaseVerifier.Library
