import Mathlib.Algebra.Group.Nat.Defs
import Mathlib.Data.Set.Lattice
import Mathlib.Order.Bounds.Basic
import Mathlib.Tactic.Common

/-! Binary search for the least number with an upward closed property. The counters are
words of some size, and a probe may fail. -/

namespace TaseVerifier.Library.BinarySearch

/-- The loop over `lo` and `hi` with counters modulo `W`, in at most `fuel` rounds. -/
def search (W : ℕ) (probe : ℕ → Option Bool) : ℕ → ℕ → ℕ → Option ℕ
  | 0, lo, hi => if lo < hi then none else some lo
  | fuel + 1, lo, hi =>
    if lo < hi then do
      let mid := (lo + (hi - lo) / 2) % W
      if ← probe mid then search W probe fuel lo mid
      else search W probe fuel ((mid + 1) % W) hi
    else some lo

variable {W : ℕ} {probe : ℕ → Option Bool} {p : ℕ → Prop} {fuel lo hi : ℕ}

theorem search_done (h : ¬lo < hi) : search W probe fuel lo hi = some lo := by
  cases fuel <;> exact if_neg h

/-- One round, where no counter wraps around. -/
theorem search_step (h : lo < hi) (hW : hi < W) {b : Bool}
    (hb : probe (lo + (hi - lo) / 2) = some b) :
    search W probe (fuel + 1) lo hi =
      if b then search W probe fuel lo (lo + (hi - lo) / 2)
      else search W probe fuel (lo + (hi - lo) / 2 + 1) hi := by
  have hmid : (lo + (hi - lo) / 2) % W = lo + (hi - lo) / 2 := Nat.mod_eq_of_lt (by omega)
  have hnext : (lo + (hi - lo) / 2 + 1) % W = lo + (hi - lo) / 2 + 1 := Nat.mod_eq_of_lt (by omega)
  rw [search, if_pos h]
  simp only [hmid, hnext, hb, Option.bind_eq_bind, Option.bind_some]

/-- The search ends with the least number that has the property, if it lies between the
bounds and the probes decide it there. -/
theorem search_isLeast (hmono : ∀ a b, a ≤ b → p a → p b) (hle : lo ≤ hi) (hW : hi < W)
    (hprobe : ∀ n, lo ≤ n → n < hi → ∃ b, probe n = some b ∧ (b = true ↔ p n))
    (hhi : p hi) (hlo : ∀ n, p n → lo ≤ n) (hfuel : hi - lo < 2 ^ fuel) :
    ∃ v, search W probe fuel lo hi = some v ∧ IsLeast {n | p n} v := by
  induction fuel generalizing lo hi with
  | zero =>
    rw [Nat.pow_zero] at hfuel
    obtain rfl : lo = hi := by omega
    exact ⟨lo, search_done (lt_irrefl lo), hhi, hlo⟩
  | succ fuel ih =>
    by_cases h : lo < hi
    · rw [Nat.pow_succ] at hfuel
      obtain ⟨b, hb, hiff⟩ := hprobe (lo + (hi - lo) / 2) (by omega) (by omega)
      rw [search_step h hW hb]
      cases b with
      | true =>
        exact ih (by omega) (by omega) (fun n hn hn' => hprobe n hn (by omega)) (hiff.1 rfl) hlo
          (by omega)
      | false =>
        have hmid : ¬p (lo + (hi - lo) / 2) := fun hp => Bool.false_ne_true (hiff.2 hp)
        refine ih (by omega) hW (fun n hn hn' => hprobe n (by omega) hn') hhi (fun n hn => ?_)
          (by omega)
        by_contra hlt
        exact hmid (hmono n _ (by omega) hn)
    · obtain rfl : lo = hi := by omega
      exact ⟨lo, search_done h, hhi, hlo⟩

/-! ### Ends of a set of numbers -/

variable {S : Set ℕ} {m : ℕ}

theorem isLeast_of_reached (h : IsLeast {n | ∃ v ∈ S, v ≤ n} m) : IsLeast S m := by
  obtain ⟨⟨v, hv, hle⟩, hm⟩ := h
  have hvm : m ≤ v := hm ⟨v, hv, le_rfl⟩
  refine ⟨le_antisymm hvm hle ▸ hv, fun w hw => hm ⟨w, hw, le_rfl⟩⟩

theorem isGreatest_of_bound (hne : S.Nonempty) (h : IsLeast {n | ∀ v ∈ S, v ≤ n} m) :
    IsGreatest S m := by
  refine ⟨?_, fun v hv => h.1 v hv⟩
  by_contra hm
  obtain ⟨v, hv⟩ := hne
  -- without `m` itself one less is a bound
  have hpred : ∀ w ∈ S, w ≤ m - 1 := by
    intro w hw
    have hle := h.1 w hw
    have hne : w ≠ m := fun heq => hm (heq ▸ hw)
    omega
  have hle := h.2 hpred
  have hvm : v ≤ m - 1 := hpred v hv
  have hne : v ≠ m := fun heq => hm (heq ▸ hv)
  omega

end TaseVerifier.Library.BinarySearch
