import Mathlib.Order.Basic
import Mathlib.Tactic.SplitIfs
import Mathlib.Tactic.Basic

/-! Blocks of memory of a fixed size, and loops over a range of indices that may fault.
An access outside the block faults, and so does a read of a cell never written. -/

namespace TaseVerifier.Library

variable {β σ : Type*}

/-- A cell never written holds no value. -/
structure Buffer (β : Type*) where
  cells : List (Option β)

namespace Buffer

def uninit (n : ℕ) : Buffer β := ⟨List.replicate n none⟩

def filled (n : ℕ) (v : β) : Buffer β := ⟨List.replicate n (some v)⟩

def size (b : Buffer β) : ℕ := b.cells.length

def read (b : Buffer β) (i : ℕ) : Option β := b.cells[i]?.join

def write (b : Buffer β) (i : ℕ) (v : β) : Option (Buffer β) :=
  if i < b.size then some ⟨b.cells.set i (some v)⟩ else none

/-- The cells both sizes have are kept, further ones are not yet written. -/
def resize (b : Buffer β) (n : ℕ) : Buffer β :=
  ⟨b.cells.take n ++ List.replicate (n - b.size) none⟩

@[simp] theorem size_uninit (n : ℕ) : (uninit n : Buffer β).size = n := List.length_replicate

@[simp] theorem size_filled (n : ℕ) (v : β) : (filled n v).size = n := List.length_replicate

/-- `b'` is `b` with `v` in cell `i`. -/
structure Stores (b b' : Buffer β) (i : ℕ) (v : β) : Prop where
  size : b'.size = b.size
  stored : b'.read i = some v
  kept : ∀ j, j ≠ i → b'.read j = b.read j

variable {b b' : Buffer β} {i : ℕ}

theorem write_stores (h : i < b.size) (v : β) : ∃ b', b.write i v = some b' ∧ Stores b b' i v := by
  refine ⟨_, if_pos h, List.length_set, ?_, fun j hj => ?_⟩
  · rw [read, List.getElem?_set_self h]
    rfl
  · rw [read, List.getElem?_set_ne (Ne.symm hj)]
    rfl

theorem Stores.trans {b'' : Buffer β} {v w : β} (h : Stores b b' i v) (h' : Stores b' b'' i w) :
    Stores b b'' i w where
  size := h'.size.trans h.size
  stored := h'.stored
  kept j hj := (h'.kept j hj).trans (h.kept j hj)

theorem size_resize (b : Buffer β) (n : ℕ) : (b.resize n).size = n := by
  simp only [resize, size, List.length_append, List.length_take, List.length_replicate]
  omega

theorem read_resize {n : ℕ} (hi : i < b.size) (hn : i < n) : (b.resize n).read i = b.read i := by
  unfold read resize
  rw [List.getElem?_append_left (by rw [List.length_take]; exact Nat.lt_min.2 ⟨hn, hi⟩),
    List.getElem?_take_of_lt hn]

end Buffer

/-- Each round returns and takes the invariant one index on. -/
theorem exists_foldlM_range' {f : σ → ℕ → Option σ} {P : ℕ → σ → Prop} {a n : ℕ}
    (hstep : ∀ i s, a ≤ i → i < a + n → P i s → ∃ s', f s i = some s' ∧ P (i + 1) s') {s : σ}
    (h : P a s) : ∃ s', (List.range' a n).foldlM f s = some s' ∧ P (a + n) s' := by
  induction n generalizing a s with
  | zero => exact ⟨s, rfl, h⟩
  | succ n ih =>
    obtain ⟨s₁, hs₁, h₁⟩ := hstep a s (Nat.le_refl a) (by omega) h
    obtain ⟨s', hs', h'⟩ := ih (fun i s hi hn => hstep i s (by omega) (by omega)) h₁
    refine ⟨s', ?_, by rwa [show a + (n + 1) = a + 1 + n by omega]⟩
    rw [List.range'_succ, List.foldlM_cons, hs₁]
    exact hs'

end TaseVerifier.Library
