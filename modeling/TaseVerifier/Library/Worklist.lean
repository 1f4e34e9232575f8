import Mathlib.Data.List.Perm.Subperm
import Mathlib.Logic.Relation
import Mathlib.Tactic.Common

/-! A graph search with a stack. An element is pushed when it is met for the first time, so
each one that can be reached is taken from the stack once. -/

namespace TaseVerifier.Library.Worklist

variable {α : Type} [DecidableEq α]

structure State (α : Type) where
  stack : List α
  visited : List α
  done : List α

def push (s : State α) (x : α) : State α :=
  if x ∈ s.visited then s else { s with stack := x :: s.stack, visited := x :: s.visited }

def pushAll (s : State α) (xs : List α) : State α := xs.foldl push s

variable (succ : α → List α)

def step (top : α) (s : State α) : State α :=
  pushAll { s with done := s.done ++ [top] } (succ top)

/-- The loop, in at most so many rounds. -/
def run : ℕ → State α → Option (State α)
  | 0, s => if s.stack = [] then some s else none
  | n + 1, s =>
    match s.stack with
    | [] => some s
    | top :: rest => run n (step succ top { s with stack := rest })

def start (roots : List α) : State α := pushAll ⟨[], [], []⟩ roots

def Reaches : α → α → Prop := Relation.ReflTransGen fun x y => y ∈ succ x

/-- What is visited is reached, each element is on the stack or done, and the successors of
what is done are visited. -/
structure Inv (roots : List α) (s : State α) : Prop where
  nodup : s.visited.Nodup
  perm : (s.stack ++ s.done).Perm s.visited
  reached : ∀ x ∈ s.visited, ∃ r ∈ roots, Reaches succ r x
  closed : ∀ x ∈ s.done, ∀ y ∈ succ x, y ∈ s.visited

section Push

variable {s : State α} {xs : List α} {x y : α}

theorem push_of_mem (h : x ∈ s.visited) : push s x = s := if_pos h

theorem push_of_not_mem (h : x ∉ s.visited) :
    push s x = { s with stack := x :: s.stack, visited := x :: s.visited } := if_neg h

@[simp] theorem push_done : (push s x).done = s.done := by
  unfold push
  split_ifs <;> rfl

theorem mem_visited_push : y ∈ (push s x).visited ↔ y = x ∨ y ∈ s.visited := by
  by_cases h : x ∈ s.visited
  · rw [push_of_mem h]
    exact ⟨.inr, fun hy => hy.elim (fun heq => heq ▸ h) id⟩
  · rw [push_of_not_mem h, List.mem_cons]

@[simp] theorem pushAll_done : (pushAll s xs).done = s.done := by
  induction xs generalizing s with
  | nil => rfl
  | cons x xs ih => exact (ih (s := push s x)).trans push_done

theorem mem_visited_pushAll : y ∈ (pushAll s xs).visited ↔ y ∈ xs ∨ y ∈ s.visited := by
  induction xs generalizing s with
  | nil => simp [pushAll]
  | cons x xs ih =>
    change y ∈ (pushAll (push s x) xs).visited ↔ _
    rw [ih, mem_visited_push, List.mem_cons]
    tauto

theorem pushAll_of_subset (h : ∀ x ∈ xs, x ∈ s.visited) : pushAll s xs = s := by
  induction xs with
  | nil => rfl
  | cons x xs ih =>
    change pushAll (push s x) xs = s
    rw [push_of_mem (h x List.mem_cons_self), ih fun y hy => h y (List.mem_cons_of_mem x hy)]

theorem push_perm (hn : s.visited.Nodup) (hp : (s.stack ++ s.done).Perm s.visited) :
    (push s x).visited.Nodup ∧ ((push s x).stack ++ (push s x).done).Perm (push s x).visited := by
  by_cases h : x ∈ s.visited
  · rw [push_of_mem h]
    exact ⟨hn, hp⟩
  · rw [push_of_not_mem h]
    exact ⟨List.nodup_cons.2 ⟨h, hn⟩, hp.cons x⟩

theorem pushAll_perm (hn : s.visited.Nodup) (hp : (s.stack ++ s.done).Perm s.visited) :
    (pushAll s xs).visited.Nodup ∧
      ((pushAll s xs).stack ++ (pushAll s xs).done).Perm (pushAll s xs).visited := by
  induction xs generalizing s with
  | nil => exact ⟨hn, hp⟩
  | cons x xs ih =>
    obtain ⟨hn', hp'⟩ := push_perm (x := x) hn hp
    exact ih hn' hp'

end Push

variable {succ} {roots U : List α} {s : State α} {x : α}

theorem start_inv : Inv succ roots (start roots) := by
  have hpush := @pushAll_perm α _ ⟨[], [], []⟩ roots
  obtain ⟨hn, hp⟩ := hpush List.nodup_nil (List.Perm.refl _)
  refine ⟨hn, hp, fun x hx => ?_, fun x hx => ?_⟩
  · rcases mem_visited_pushAll.1 hx with hx | hx
    · exact ⟨x, hx, .refl⟩
    · exact absurd hx List.not_mem_nil
  · rw [start, pushAll_done] at hx
    exact absurd hx List.not_mem_nil

/-- One round keeps the invariant. -/
theorem Inv.step {top : α} {rest : List α} (h : Inv succ roots s) (hs : s.stack = top :: rest) :
    Inv succ roots (step succ top { s with stack := rest }) := by
  have htop : top ∈ s.visited := h.perm.subset (by simp [hs])
  have hperm : (rest ++ (s.done ++ [top])).Perm s.visited := by
    refine (List.Perm.trans ?_ h.perm)
    rw [hs, ← List.append_assoc]
    exact List.perm_append_singleton top (rest ++ s.done)
  have hpush := @pushAll_perm α _ ⟨rest, s.visited, s.done ++ [top]⟩ (succ top)
  obtain ⟨hn, hp⟩ := hpush h.nodup hperm
  refine ⟨hn, hp, fun x hx => ?_, fun x hx y hy => mem_visited_pushAll.2 ?_⟩
  · rcases mem_visited_pushAll.1 hx with hx | hx
    · obtain ⟨r, hr, hreach⟩ := h.reached top htop
      exact ⟨r, hr, hreach.tail hx⟩
    · exact h.reached x hx
  · rw [Worklist.step, pushAll_done, List.mem_append, List.mem_singleton] at hx
    rcases hx with hx | rfl
    · exact .inr (h.closed x hx y hy)
    · exact .inl hy

/-- The roots stay visited. -/
theorem mem_visited_step {top : α} {rest : List α} (h : x ∈ s.visited) :
    x ∈ (Worklist.step succ top { s with stack := rest }).visited :=
  mem_visited_pushAll.2 (.inr h)

omit [DecidableEq α] in
/-- With an empty stack everything that can be reached is done. -/
theorem Inv.done_iff (h : Inv succ roots s) (hroots : ∀ r ∈ roots, r ∈ s.visited)
    (hs : s.stack = []) : s.done.Nodup ∧ ∀ x, x ∈ s.done ↔ ∃ r ∈ roots, Reaches succ r x := by
  have hperm : s.done.Perm s.visited := by simpa [hs] using h.perm
  refine ⟨hperm.nodup_iff.2 h.nodup, fun x => ⟨fun hx => h.reached x (hperm.subset hx), ?_⟩⟩
  rintro ⟨r, hr, hreach⟩
  induction hreach with
  | refl => exact hperm.symm.subset (hroots r hr)
  | tail _ hy ih => exact hperm.symm.subset (h.closed _ ih _ hy)

omit [DecidableEq α] in
theorem Inv.length_le (h : Inv succ roots s)
    (hU : ∀ r ∈ roots, ∀ x, Reaches succ r x → x ∈ U) :
    s.stack.length + s.done.length ≤ U.length := by
  rw [← List.length_append, h.perm.length_eq]
  refine (List.subperm_of_subset h.nodup fun x hx => ?_).length_le
  obtain ⟨r, hr, hreach⟩ := h.reached x hx
  exact hU r hr x hreach

/-- The loop ends once all that can be reached has been taken from the stack, and has then
taken each such element once. -/
theorem run_spec (hU : ∀ r ∈ roots, ∀ x, Reaches succ r x → x ∈ U) {fuel : ℕ}
    (h : Inv succ roots s) (hroots : ∀ r ∈ roots, r ∈ s.visited)
    (hfuel : U.length ≤ fuel + s.done.length) :
    ∃ s', run succ fuel s = some s' ∧ s'.done.Nodup ∧
      ∀ x, x ∈ s'.done ↔ ∃ r ∈ roots, Reaches succ r x := by
  induction fuel generalizing s with
  | zero =>
    have hlen := h.length_le hU
    have hs : s.stack = [] := List.length_eq_zero_iff.1 (by omega)
    exact ⟨s, if_pos hs, h.done_iff hroots hs⟩
  | succ fuel ih =>
    cases hs : s.stack with
    | nil => exact ⟨s, by rw [run, hs], h.done_iff hroots hs⟩
    | cons top rest =>
      have hdone : (Worklist.step succ top { s with stack := rest }).done = s.done ++ [top] :=
        pushAll_done
      obtain ⟨s', hrun, hspec⟩ := ih (h.step hs) (fun r hr => mem_visited_step (hroots r hr))
        (by rw [hdone, List.length_append, List.length_singleton]; omega)
      exact ⟨s', by rw [run, hs]; exact hrun, hspec⟩

end TaseVerifier.Library.Worklist
