import Mathlib.Order.Bounds.Basic
import Mathlib.Order.MinMax
import Mathlib.Data.Nat.Notation
import Mathlib.Tactic.Basic

/-! Edit distance of sequences. One edit inserts, deletes or replaces one element at any
place; the distance of two sequences is the least number of edits that lead from one to
the other, and `levenshtein` computes it by recursion on both. -/

namespace TaseVerifier.Library

variable {α : Type*} {xs ys zs : List α} {n m : ℕ}

inductive Edit : List α → List α → Prop
  | insert (xs ys : List α) (y : α) : Edit (xs ++ ys) (xs ++ y :: ys)
  | delete (xs ys : List α) (x : α) : Edit (xs ++ x :: ys) (xs ++ ys)
  | replace (xs ys : List α) (x y : α) : Edit (xs ++ x :: ys) (xs ++ y :: ys)

/-- `n` edits, one after the other. -/
inductive Edits : ℕ → List α → List α → Prop
  | refl (xs : List α) : Edits 0 xs xs
  | step {n : ℕ} {xs ys zs : List α} : Edit xs ys → Edits n ys zs → Edits (n + 1) xs zs

namespace Edit

theorem symm (h : Edit xs ys) : Edit ys xs := by
  cases h with
  | insert xs ys y => exact .delete xs ys y
  | delete xs ys x => exact .insert xs ys x
  | replace xs ys x y => exact .replace xs ys y x

theorem cons (a : α) (h : Edit xs ys) : Edit (a :: xs) (a :: ys) := by
  cases h with
  | insert xs ys y => exact .insert (a :: xs) ys y
  | delete xs ys x => exact .delete (a :: xs) ys x
  | replace xs ys x y => exact .replace (a :: xs) ys x y

theorem reverse (h : Edit xs ys) : Edit xs.reverse ys.reverse := by
  cases h with
  | insert xs ys y => simpa using Edit.insert ys.reverse xs.reverse y
  | delete xs ys x => simpa using Edit.delete ys.reverse xs.reverse x
  | replace xs ys x y => simpa using Edit.replace ys.reverse xs.reverse x y

end Edit

namespace Edits

theorem one (h : Edit xs ys) : Edits 1 xs ys := .step h (.refl ys)

theorem trans (h : Edits n xs ys) (h' : Edits m ys zs) : Edits (n + m) xs zs := by
  induction h with
  | refl xs => simpa using h'
  | step he _ ih => simpa only [Nat.succ_add] using Edits.step he (ih h')

theorem symm (h : Edits n xs ys) : Edits n ys xs := by
  induction h with
  | refl xs => exact .refl xs
  | step he _ ih => exact ih.trans (one he.symm)

theorem cons (a : α) (h : Edits n xs ys) : Edits n (a :: xs) (a :: ys) := by
  induction h with
  | refl xs => exact .refl _
  | step he _ ih => exact .step (he.cons a) ih

theorem reverse (h : Edits n xs ys) : Edits n xs.reverse ys.reverse := by
  induction h with
  | refl xs => exact .refl _
  | step he _ ih => exact .step he.reverse ih

theorem nil_left (ys : List α) : Edits ys.length [] ys := by
  induction ys with
  | nil => exact .refl []
  | cons y ys ih => exact ih.trans (one (.insert [] ys y))

end Edits

variable [DecidableEq α]

/-- The distance from `x :: xs`, given the distances `row` from `xs`. -/
def levenshteinRow (x : α) (row : List α → ℕ) : List α → ℕ
  | [] => row [] + 1
  | y :: ys => min (row ys + if x = y then 0 else 1)
      (min (row (y :: ys) + 1) (levenshteinRow x row ys + 1))

def levenshtein : List α → List α → ℕ
  | [] => List.length
  | x :: xs => levenshteinRow x (levenshtein xs)

@[simp] theorem levenshtein_nil_left (ys : List α) : levenshtein [] ys = ys.length := rfl

theorem levenshtein_cons_nil (x : α) (xs : List α) :
    levenshtein (x :: xs) [] = levenshtein xs [] + 1 := rfl

@[simp] theorem levenshtein_nil_right (xs : List α) : levenshtein xs [] = xs.length := by
  induction xs with
  | nil => rfl
  | cons x xs ih => rw [levenshtein_cons_nil, ih, List.length_cons]

theorem levenshtein_cons_cons (x y : α) (xs ys : List α) :
    levenshtein (x :: xs) (y :: ys) = min (levenshtein xs ys + if x = y then 0 else 1)
      (min (levenshtein xs (y :: ys) + 1) (levenshtein (x :: xs) ys + 1)) := rfl

theorem levenshtein_self (xs : List α) : levenshtein xs xs = 0 := by
  induction xs with
  | nil => rfl
  | cons x xs ih => simp [levenshtein_cons_cons, ih]

theorem levenshtein_cons_left_le (x : α) (xs ys : List α) :
    levenshtein (x :: xs) ys ≤ levenshtein xs ys + 1 := by
  cases ys with
  | nil => exact le_rfl
  | cons y ys => exact (min_le_right _ _).trans (min_le_left _ _)

theorem levenshtein_cons_right_le (y : α) (xs ys : List α) :
    levenshtein xs (y :: ys) ≤ levenshtein xs ys + 1 := by
  cases xs with
  | nil => exact le_rfl
  | cons x xs => exact (min_le_right _ _).trans (min_le_right _ _)

theorem levenshtein_le_cons_left (x : α) (xs ys : List α) :
    levenshtein xs ys ≤ levenshtein (x :: xs) ys + 1 := by
  induction ys with
  | nil => simp only [levenshtein_nil_right, List.length_cons]; omega
  | cons y ys ih =>
    have h := levenshtein_cons_right_le y xs ys
    rw [levenshtein_cons_cons]
    omega

theorem levenshtein_replace_le (x y : α) (xs zs : List α) :
    levenshtein (x :: xs) zs ≤ levenshtein (y :: xs) zs + 1 := by
  induction zs with
  | nil => simp
  | cons z zs ih =>
    have h : levenshtein xs zs + (if x = z then 0 else 1) ≤ levenshtein xs zs + 1 := by
      split_ifs <;> omega
    rw [levenshtein_cons_cons, levenshtein_cons_cons]
    omega

theorem levenshtein_cons_le (a : α) (h : ∀ zs, levenshtein xs zs ≤ levenshtein ys zs + 1)
    (zs : List α) : levenshtein (a :: xs) zs ≤ levenshtein (a :: ys) zs + 1 := by
  induction zs with
  | nil => simpa [levenshtein_cons_nil] using h []
  | cons z zs ih =>
    have h₁ := h zs
    have h₂ := h (z :: zs)
    rw [levenshtein_cons_cons, levenshtein_cons_cons]
    omega

theorem levenshtein_append_le (as : List α) (h : ∀ zs, levenshtein xs zs ≤ levenshtein ys zs + 1)
    (zs : List α) : levenshtein (as ++ xs) zs ≤ levenshtein (as ++ ys) zs + 1 := by
  induction as generalizing zs with
  | nil => exact h zs
  | cons a as ih => exact levenshtein_cons_le a ih zs

theorem Edit.levenshtein_le (h : Edit xs ys) (zs : List α) :
    levenshtein xs zs ≤ levenshtein ys zs + 1 := by
  cases h with
  | insert as ys y => exact levenshtein_append_le as (levenshtein_le_cons_left y ys) zs
  | delete as ys x => exact levenshtein_append_le as (levenshtein_cons_left_le x ys) zs
  | replace as ys x y => exact levenshtein_append_le as (levenshtein_replace_le x y ys) zs

theorem Edits.levenshtein_le (h : Edits n xs ys) : levenshtein xs ys ≤ n := by
  induction h with
  | refl xs => exact (levenshtein_self xs).le
  | step he _ ih => exact (he.levenshtein_le _).trans (Nat.succ_le_succ ih)

theorem edits_levenshtein (xs ys : List α) : Edits (levenshtein xs ys) xs ys := by
  induction xs generalizing ys with
  | nil => exact .nil_left ys
  | cons x xs ihx =>
    induction ys with
    | nil => exact .step (.delete [] xs x) (ihx [])
    | cons y ys ihy =>
      rw [levenshtein_cons_cons]
      rcases min_choice (levenshtein xs ys + if x = y then 0 else 1)
        (min (levenshtein xs (y :: ys) + 1) (levenshtein (x :: xs) ys + 1)) with h | h
      · rw [h]
        split_ifs with hxy
        · subst hxy
          exact (ihx ys).cons x
        · exact .step (.replace [] xs x y) ((ihx ys).cons y)
      · rw [h]
        rcases min_choice (levenshtein xs (y :: ys) + 1) (levenshtein (x :: xs) ys + 1) with h | h
        · rw [h]
          exact .step (.delete [] xs x) (ihx (y :: ys))
        · rw [h]
          exact ihy.trans (.one (.insert [] ys y))

/-- No shorter run of edits leads from `xs` to `ys`. -/
theorem levenshtein_isLeast (xs ys : List α) : IsLeast {n | Edits n xs ys} (levenshtein xs ys) :=
  ⟨edits_levenshtein xs ys, fun _ h => Edits.levenshtein_le h⟩

theorem levenshtein_comm (xs ys : List α) : levenshtein xs ys = levenshtein ys xs :=
  le_antisymm (edits_levenshtein ys xs).symm.levenshtein_le
    (edits_levenshtein xs ys).symm.levenshtein_le

theorem levenshtein_triangle (xs ys zs : List α) :
    levenshtein xs zs ≤ levenshtein xs ys + levenshtein ys zs :=
  ((edits_levenshtein xs ys).trans (edits_levenshtein ys zs)).levenshtein_le

theorem levenshtein_eq_zero : levenshtein xs ys = 0 ↔ xs = ys := by
  constructor
  · intro h
    have he := edits_levenshtein xs ys
    rw [h] at he
    cases he
    rfl
  · rintro rfl
    exact levenshtein_self xs

theorem levenshtein_reverse (xs ys : List α) :
    levenshtein xs.reverse ys.reverse = levenshtein xs ys := by
  refine le_antisymm (edits_levenshtein xs ys).reverse.levenshtein_le ?_
  simpa using (edits_levenshtein xs.reverse ys.reverse).reverse.levenshtein_le

/-- The recursion from the other end. -/
theorem levenshtein_concat_concat (xs ys : List α) (x y : α) :
    levenshtein (xs ++ [x]) (ys ++ [y]) = min (levenshtein xs ys + if x = y then 0 else 1)
      (min (levenshtein xs (ys ++ [y]) + 1) (levenshtein (xs ++ [x]) ys + 1)) := by
  rw [← levenshtein_reverse, ← levenshtein_reverse xs ys, ← levenshtein_reverse xs (ys ++ [y]),
    ← levenshtein_reverse (xs ++ [x]) ys]
  simp only [List.reverse_append, List.reverse_cons, List.reverse_nil, List.nil_append,
    List.singleton_append]
  rw [levenshtein_cons_cons]

theorem levenshtein_concat_le (x : α) (xs ys : List α) :
    levenshtein (xs ++ [x]) ys ≤ levenshtein xs ys + 1 := by
  simpa using (Edit.delete xs [] x).levenshtein_le ys

theorem levenshtein_le_concat (x : α) (xs ys : List α) :
    levenshtein xs ys ≤ levenshtein (xs ++ [x]) ys + 1 := by
  simpa using (Edit.insert xs [] x).levenshtein_le ys

theorem levenshtein_le_max (xs ys : List α) : levenshtein xs ys ≤ max xs.length ys.length := by
  induction xs generalizing ys with
  | nil => simp
  | cons x xs ih =>
    cases ys with
    | nil => simp
    | cons y ys =>
      have h := ih ys
      have hs : (if x = y then 0 else 1) ≤ 1 := by split_ifs <;> omega
      rw [levenshtein_cons_cons]
      simp only [List.length_cons]
      omega

theorem length_le_add_levenshtein (xs ys : List α) : xs.length ≤ ys.length + levenshtein xs ys := by
  have h := levenshtein_triangle xs ys []
  rw [levenshtein_nil_right, levenshtein_nil_right] at h
  omega

end TaseVerifier.Library
