import Mathlib.Data.List.Forall2
import Mathlib.Data.List.Nodup

/-! Systems whose steps branch or fail, followed through all their branches at once. Where every
step leaves exactly one branch compatible with a choice made outside, so does a run. -/

namespace TaseVerifier

/-- Exactly one element of the list is in `Q`, and this one is in `P`. -/
def OneOf {α : Type*} (Q P : α → Prop) (l : List α) : Prop :=
  ∃ pre a post, l = pre ++ a :: post ∧ Q a ∧ P a ∧ ∀ b ∈ pre ++ post, ¬ Q b

theorem exists_of_mem_right {α β : Type*} {R : α → β → Prop} {l : List α} {l' : List β}
    (h : List.Forall₂ R l l') {b : β} (hb : b ∈ l') : ∃ a ∈ l, R a b := by
  induction h with
  | nil => cases hb
  | cons hab _ ih =>
    rcases List.mem_cons.mp hb with rfl | hb
    · exact ⟨_, List.mem_cons_self, hab⟩
    · obtain ⟨a, ha, hab⟩ := ih hb
      exact ⟨a, List.mem_cons_of_mem _ ha, hab⟩

theorem exists_append_of_forall₂ {α β : Type*} {R : α → β → Prop} {xs ys : List α} {l : List β}
    (h : List.Forall₂ R (xs ++ ys) l) :
    ∃ xs' ys', l = xs' ++ ys' ∧ List.Forall₂ R xs xs' ∧ List.Forall₂ R ys ys' := by
  induction xs generalizing l with
  | nil => exact ⟨[], l, rfl, .nil, h⟩
  | cons x xs ih =>
    obtain ⟨b, l', hxb, hl', rfl⟩ := List.forall₂_cons_left_iff.mp h
    obtain ⟨xs', ys', rfl, hxs, hys⟩ := ih hl'
    exact ⟨b :: xs', ys', rfl, .cons hxb hxs, hys⟩

namespace OneOf

variable {α β : Type*} {Q P : α → Prop} {l : List α}

theorem singleton {a : α} (hQ : Q a) (hP : P a) : OneOf Q P [a] := ⟨[], a, [], rfl, hQ, hP, by simp⟩

theorem imp {P' : α → Prop} (h : OneOf Q P l) (hP : ∀ a ∈ l, Q a → P a → P' a) : OneOf Q P' l := by
  obtain ⟨pre, a, post, rfl, hq, hp, hnot⟩ := h
  exact ⟨pre, a, post, rfl, hq, hP a (by simp) hq hp, hnot⟩

theorem cons_of_not {a : α} (ha : ¬ Q a) (h : OneOf Q P l) : OneOf Q P (a :: l) := by
  obtain ⟨pre, b, post, rfl, hQ, hP, hnot⟩ := h
  exact ⟨a :: pre, b, post, rfl, hQ, hP, List.forall_mem_cons.mpr ⟨ha, hnot⟩⟩

theorem append_of_not {l' : List α} (h : OneOf Q P l) (hl : ∀ b ∈ l', ¬ Q b) :
    OneOf Q P (l ++ l') := by
  obtain ⟨pre, a, post, rfl, hQ, hP, hnot⟩ := h
  refine ⟨pre, a, post ++ l', by simp, hQ, hP, fun b hb => ?_⟩
  rw [← List.append_assoc] at hb
  rcases List.mem_append.mp hb with hb | hb
  · exact hnot b hb
  · exact hl b hb

theorem not_append {l' : List α} (hl : ∀ b ∈ l', ¬ Q b) (h : OneOf Q P l) :
    OneOf Q P (l' ++ l) := by
  induction l' with
  | nil => exact h
  | cons a l' ih =>
    exact cons_of_not (hl a List.mem_cons_self) (ih fun b hb => hl b (List.mem_cons_of_mem a hb))

theorem flatMap {Q' P' : β → Prop} {f : α → List β} (h : OneOf Q P l)
    (hone : ∀ a ∈ l, Q a → P a → OneOf Q' P' (f a))
    (hnone : ∀ a ∈ l, ¬ Q a → ∀ b ∈ f a, ¬ Q' b) : OneOf Q' P' (l.flatMap f) := by
  obtain ⟨pre, a, post, rfl, hQ, hP, hnot⟩ := h
  rw [List.flatMap_append, List.flatMap_cons]
  have hout : ∀ l' : List α, (∀ c ∈ l', c ∈ pre ++ post) → (∀ c ∈ l', c ∈ pre ++ a :: post) →
      ∀ b ∈ l'.flatMap f, ¬ Q' b := by
    intro l' hsub hmem b hb
    obtain ⟨c, hc, hb⟩ := List.mem_flatMap.mp hb
    exact hnone c (hmem c hc) (hnot c (hsub c hc)) b hb
  refine not_append (hout pre (by simp +contextual) (by simp +contextual)) ?_
  exact (hone a (by simp) hQ hP).append_of_not
    (hout post (by simp +contextual) (by simp +contextual))

theorem forall₂ {Q' P' : β → Prop} {R : α → β → Prop} {l' : List β} (h : OneOf Q P l)
    (hl : List.Forall₂ R l l') (hQ : ∀ a b, R a b → (Q' b ↔ Q a))
    (hP : ∀ a b, R a b → Q a → P a → P' b) : OneOf Q' P' l' := by
  obtain ⟨pre, a, post, rfl, hq, hp, hnot⟩ := h
  obtain ⟨pre', rest, rfl, hpre, hrest⟩ := exists_append_of_forall₂ hl
  obtain ⟨b, post', hab, hpost, rfl⟩ := List.forall₂_cons_left_iff.mp hrest
  refine ⟨pre', b, post', rfl, (hQ a b hab).mpr hq, hP a b hab hq hp, fun c hc hqc => ?_⟩
  obtain ⟨d, hd, hdc⟩ : ∃ d ∈ pre ++ post, R d c := by
    rcases List.mem_append.mp hc with hc | hc
    · obtain ⟨d, hd, hdc⟩ := exists_of_mem_right hpre hc
      exact ⟨d, List.mem_append_left _ hd, hdc⟩
    · obtain ⟨d, hd, hdc⟩ := exists_of_mem_right hpost hc
      exact ⟨d, List.mem_append_right _ hd, hdc⟩
  exact hnot d hd ((hQ d c hdc).mp hqc)

theorem map {Q' P' : β → Prop} {f : α → β} (h : OneOf Q P l)
    (hQ : ∀ a, Q' (f a) ↔ Q a) (hP : ∀ a, Q a → P a → P' (f a)) : OneOf Q' P' (l.map f) := by
  refine h.forall₂ (R := fun a b => f a = b) ?_ (fun a b hab => hab ▸ hQ a) fun a b hab => hab ▸ hP a
  exact List.forall₂_map_right_iff.mpr (List.forall₂_same.mpr fun _ _ => rfl)

end OneOf

/-- Where a branch is: it goes on, or its step has failed. -/
inductive Leaf (S E : Type*) where
  | live (s : S)
  | stopped (s : S) (e : E)

namespace Leaf

variable {S E : Type*}

def state : Leaf S E → S
  | live s => s
  | stopped s _ => s

def isLive : Leaf S E → Bool
  | live _ => true
  | stopped _ _ => false

def advance (step : S → Except E (List S)) : Leaf S E → List (Leaf S E)
  | live s =>
    match step s with
    | .ok ss => ss.map live
    | .error e => [stopped s e]
  | stopped s e => [stopped s e]

end Leaf

def runFor {C : Type*} (next : C → Option C) (c : C) : ℕ → Option C
  | 0 => some c
  | n + 1 => (runFor next c n).bind next

/-- A step that branches follows one that does not. `Q` holds of the branches that are compatible
with the choice, and `I` of all that are reached. -/
structure Follows {S C E : Type*} (step : S → Except E (List S)) (next : C → Option C)
    (I Q : S → Prop) (R : S → C → Prop) : Prop where
  inv : ∀ s ss, I s → step s = .ok ss → ∀ t ∈ ss, I t
  back : ∀ s ss, I s → step s = .ok ss → ∀ t ∈ ss, Q t → Q s
  one : ∀ s ss c, I s → step s = .ok ss → Q s → R s c →
    OneOf Q (fun t => ∃ c', next c = some c' ∧ R t c') ss

namespace Follows

variable {S C E : Type*} {step : S → Except E (List S)} {next : C → Option C} {I Q : S → Prop}
  {R : S → C → Prop} (h : Follows step next I Q R) {s : S}

include h

theorem advance {l : Leaf S E} (hl : I l.state) :
    ∀ l' ∈ l.advance step, I l'.state ∧ (Q l'.state → Q l.state) := by
  intro l' hl'
  cases l with
  | stopped s e =>
    obtain rfl := List.mem_singleton.mp hl'
    exact ⟨hl, id⟩
  | live s =>
    simp only [Leaf.advance] at hl'
    split at hl'
    next ss hss =>
      obtain ⟨t, ht, rfl⟩ := List.mem_map.mp hl'
      exact ⟨h.inv s ss hl hss t ht, h.back s ss hl hss t ht⟩
    next e he =>
      obtain rfl := List.mem_singleton.mp hl'
      exact ⟨hl, id⟩

end Follows

end TaseVerifier
