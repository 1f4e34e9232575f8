import Mathlib.Algebra.BigOperators.Group.List.Basic
import Mathlib.Algebra.GroupWithZero.Nat
import Mathlib.Data.List.TakeWhile

/-! Writers and readers of a stream. A writer appends the text of a value to a list or
fails; `Writes` says on which values it succeeds and with which text. A reader takes a value
off the front of a list or fails. `Reads` says what a reader does on one text, whatever
follows it; `Returns` says what is known of every value a reader can return and of the length
of the text it came from. -/

namespace TaseVerifier.Library

abbrev Byte := BitVec 8

abbrev Reader (β α : Type) := StateT (List β) Option α

variable {β α γ : Type}

/-- On `text`, whatever follows it, the reader returns `a` and stops where `text` ends. -/
def Reads (r : Reader β α) (text : List β) (a : α) : Prop :=
  ∀ rest, r (text ++ rest) = some (a, rest)

/-- Each value the reader returns, with the length of the text taken for it, is in `Q`. -/
def Returns (r : Reader β α) (Q : ℕ → α → Prop) : Prop :=
  ∀ s a s', r s = some (a, s') → ∃ n, s.length = n + s'.length ∧ Q n a

namespace Reader

/-- `n` values, one after the other. -/
def many (r : Reader β α) : (n : ℕ) → Reader β {l : List α // l.length = n}
  | 0 => pure ⟨[], rfl⟩
  | n + 1 => do
    let a ← r
    let l ← many r n
    return ⟨a :: l.1, by rw [List.length_cons, l.2]⟩

end Reader

/-- A text without the terminator is all that stands before it. -/
theorem takeWhile_bne {b : Byte} {l : List Byte} (h : b ∉ l) : l.takeWhile (· != b) = l := by
  rw [List.takeWhile_eq_self_iff]
  intro c hc
  rw [bne_iff_ne]
  rintro rfl
  exact h hc

theorem bind_apply (r : Reader β α) (f : α → Reader β γ) (s : List β) :
    (r >>= f) s = (r s).bind fun p => f p.1 p.2 := rfl

/-- The writer succeeds on the values in `ok`, and there appends the value's text. -/
def Writes (w : List β → α → Option (List β)) (ok : α → Prop) (encode : α → List β) : Prop :=
  ∀ f a g, w f a = some g ↔ ok a ∧ g = f ++ encode a

theorem Writes.foldlM {w : List β → α → Option (List β)} {ok : α → Prop} {encode : α → List β}
    (h : Writes w ok encode) {l : List α} {f g : List β} :
    l.foldlM w f = some g ↔ (∀ a ∈ l, ok a) ∧ g = f ++ l.flatMap encode := by
  induction l generalizing f with
  | nil => simp [eq_comm]
  | cons a l ih =>
    simp only [List.foldlM_cons, Option.bind_eq_bind, Option.bind_eq_some_iff, h _ _ _, ih,
      List.forall_mem_cons, List.flatMap_cons]
    constructor
    · rintro ⟨_, ⟨ha, rfl⟩, hl, rfl⟩
      exact ⟨⟨ha, hl⟩, List.append_assoc _ _ _⟩
    · rintro ⟨⟨ha, hl⟩, rfl⟩
      exact ⟨_, ⟨ha, rfl⟩, hl, (List.append_assoc _ _ _).symm⟩

namespace Reads

variable {r : Reader β α} {text u : List β} {a : α}

theorem pure (a : α) : Reads (Pure.pure a : Reader β α) [] a := fun _ => rfl

theorem check {p : Prop} [Decidable p] (h : p) :
    Reads (guard p : Reader β Unit) [] () := by
  intro rest
  rw [guard, if_pos h]
  rfl

/-- After `text` the computation goes on with the value read. -/
theorem bind_append {f : α → Reader β γ} (h : Reads r text a) (rest : List β) :
    (r >>= f) (text ++ rest) = f a rest := by
  rw [bind_apply, h]
  rfl

theorem bind {f : α → Reader β γ} {c : γ} (h : Reads r text a) (hf : Reads (f a) u c) :
    Reads (r >>= f) (text ++ u) c := by
  intro rest
  rw [List.append_assoc, h.bind_append]
  exact hf rest

/-- The last step of a reader that only assembles what was read. -/
theorem bind_pure {f : α → γ} (h : Reads r text a) :
    Reads (r >>= fun x => Pure.pure (f x)) text (f a) := by
  have hb := h.bind (f := fun x => Pure.pure (f x)) (pure (f a))
  rwa [List.append_nil] at hb

/-- A reader that meets the text at the very end of the stream. -/
theorem whole (h : Reads r text a) : r text = some (a, []) := by
  have ht := h []
  rwa [List.append_nil] at ht

theorem many (encode : α → List β) {l : List α} (h : ∀ a ∈ l, Reads r (encode a) a) {n : ℕ}
    (hn : l.length = n) : Reads (r.many n) (l.flatMap encode) ⟨l, hn⟩ := by
  subst hn
  induction l with
  | nil => exact pure _
  | cons a l ih =>
    have hl := ih fun x hx => h x (List.mem_cons_of_mem a hx)
    exact (h a List.mem_cons_self).bind hl.bind_pure

end Reads

namespace Returns

variable {r : Reader β α} {Q R : ℕ → α → Prop}

theorem pure {a : α} (h : Q 0 a) : Returns (Pure.pure a : Reader β α) Q := by
  intro s b s' hs
  obtain ⟨rfl, rfl⟩ : a = b ∧ s = s' := Prod.mk.inj (Option.some.inj hs)
  exact ⟨0, (Nat.zero_add _).symm, h⟩

theorem check (p : Prop) [Decidable p] :
    Returns (guard p : Reader β Unit) fun n _ => n = 0 ∧ p := by
  by_cases hp : p
  · rw [guard, if_pos hp]
    exact pure ⟨rfl, hp⟩
  · rw [guard, if_neg hp]
    intro s a s' hs
    cases hs

theorem mono (h : Returns r Q) (hQR : ∀ n a, Q n a → R n a) : Returns r R := by
  intro s a s' hs
  obtain ⟨n, hn, hq⟩ := h s a s' hs
  exact ⟨n, hn, hQR n a hq⟩

theorem bind {f : α → Reader β γ} {R : ℕ → γ → Prop} (h : Returns r Q)
    (hf : ∀ n a, Q n a → Returns (f a) fun m c => R (n + m) c) : Returns (r >>= f) R := by
  intro s c s' hs
  rw [bind_apply, Option.bind_eq_some_iff] at hs
  obtain ⟨⟨a, t⟩, hr, hc⟩ := hs
  obtain ⟨n, hn, hq⟩ := h s a t hr
  obtain ⟨m, hm, hR⟩ := hf n a hq t c s' hc
  exact ⟨n + m, by omega, hR⟩

theorem many (size : α → ℕ) (P : α → Prop) (h : Returns r fun n a => size a ≤ n ∧ P a) (k : ℕ) :
    Returns (r.many k) fun n l => (l.1.map size).sum ≤ n ∧ ∀ a ∈ l.1, P a := by
  induction k with
  | zero => exact pure ⟨Nat.le_refl 0, by simp⟩
  | succ k ih =>
    refine h.bind fun n a ha => ih.bind fun m l hl => pure ⟨?_, ?_⟩
    · rw [List.map_cons, List.sum_cons]
      omega
    · intro x hx
      obtain rfl | hx := List.mem_cons.mp hx
      · exact ha.2
      · exact hl.2 x hx

end Returns

end TaseVerifier.Library
