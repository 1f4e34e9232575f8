import Mathlib.Tactic.Basic

/-! Postconditions of computations that carry a state and may stop with an error. A
computation ensures `Q` from a state when each result it returns there meets `Q`, and
each error it stops with is one of those admitted by `E`. -/

namespace TaseVerifier.Library

variable {S ε α β : Type}

/-- From `s`, the computation returns a result that meets `Q` or stops by an error in `E`. -/
def Ensures (E : ε → Prop) (x : StateT S (Except ε) α) (s : S) (Q : α → S → Prop) : Prop :=
  match x s with
  | .ok (a, s') => Q a s'
  | .error err => E err

namespace Ensures

variable {E : ε → Prop} {x : StateT S (Except ε) α} {s : S} {Q R : α → S → Prop}

theorem pure {a : α} (h : Q a s) : Ensures E (Pure.pure a : StateT S (Except ε) α) s Q := h

theorem mono (h : Ensures E x s Q) (hQR : ∀ a s', Q a s' → R a s') : Ensures E x s R := by
  unfold Ensures at h ⊢
  split <;> simp_all

theorem weaken {E' : ε → Prop} (h : Ensures E x s Q) (hE : ∀ err, E err → E' err) :
    Ensures E' x s Q := by
  unfold Ensures at h ⊢
  split <;> simp_all

/-- Two postconditions of one computation, with the errors of the second. -/
theorem and {E' : ε → Prop} (h : Ensures E x s Q) (h' : Ensures E' x s R) :
    Ensures E' x s fun a s' => Q a s' ∧ R a s' := by
  unfold Ensures at h h' ⊢
  split <;> simp_all

theorem bind {f : α → StateT S (Except ε) β} {R : β → S → Prop} (h : Ensures E x s Q)
    (hf : ∀ a s', Q a s' → Ensures E (f a) s' R) : Ensures E (x >>= f) s R := by
  unfold Ensures at h
  change Ensures E (fun s => x s >>= fun p => f p.1 p.2) s R
  cases hx : x s with
  | ok p =>
    rw [hx] at h
    have hp := hf p.1 p.2 h
    simp only [Ensures, hx] at hp ⊢
    exact hp
  | error err =>
    rw [hx] at h
    simp only [Ensures, hx]
    exact h

/-- The state is read once and the rest depends on it. -/
theorem get_bind {f : S → StateT S (Except ε) α} (h : Ensures E (f s) s Q) :
    Ensures E (MonadState.get >>= f) s Q := h

theorem modify {f : S → S} {Q : PUnit → S → Prop} (h : Q ⟨⟩ (f s)) :
    Ensures E (MonadStateOf.modifyGet fun s => (PUnit.unit, f s)) s Q := h

theorem lift {y : Except ε α} {a : α} (hy : y = .ok a) (h : Q a s) :
    Ensures E (liftM y : StateT S (Except ε) α) s Q := by
  subst hy
  exact h

/-- With no admitted error the computation returns. -/
theorem returns (h : Ensures (fun _ => False) x s Q) : ∃ a s', x s = .ok (a, s') ∧ Q a s' := by
  unfold Ensures at h
  split at h
  next a s' hx => exact ⟨a, s', hx, h⟩
  next => exact h.elim

end Ensures

end TaseVerifier.Library
