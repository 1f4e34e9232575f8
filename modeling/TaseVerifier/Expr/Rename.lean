import Mathlib.Data.Set.Function
import TaseVerifier.Expr.Kids

/-! Expressions under a renaming of their symbolic arrays. -/

namespace TaseVerifier

/-- Symbolic arrays are renamed, constant arrays stay. -/
def KleeArray.rename (f : KleeArray → KleeArray) (a : KleeArray) : KleeArray :=
  if a.isSymbolicArray then f a else a

mutual
def Expr.rename (f : KleeArray → KleeArray) : Expr → Expr
  | .constant c => .constant c
  | .notOptimized s => .notOptimized (s.rename f)
  | .read u i => .read (u.rename f) (i.rename f)
  | .select c t e => .select (c.rename f) (t.rename f) (e.rename f)
  | .concat l r => .concat (l.rename f) (r.rename f)
  | .extract e off w => .extract (e.rename f) off w
  | .not e => .not (e.rename f)
  | .cast k e w => .cast k (e.rename f) w
  | .binary k l r => .binary k (l.rename f) (r.rename f)
def UpdateList.rename (f : KleeArray → KleeArray) : UpdateList → UpdateList
  | .root a => .root (a.rename f)
  | .node i v next => .node (i.rename f) (v.rename f) (next.rename f)
end

mutual
theorem Expr.rename_id : ∀ e : Expr, e.rename id = e
  | .constant _ => by simp only [Expr.rename]
  | .notOptimized e | .extract e _ _ | .not e | .cast _ e _ => by
    simp only [Expr.rename, Expr.rename_id e]
  | .read u i => by simp only [Expr.rename, UpdateList.rename_id u, Expr.rename_id i]
  | .select c t e => by
    simp only [Expr.rename, Expr.rename_id c, Expr.rename_id t, Expr.rename_id e]
  | .concat l r | .binary _ l r => by simp only [Expr.rename, Expr.rename_id l, Expr.rename_id r]
theorem UpdateList.rename_id : ∀ u : UpdateList, u.rename id = u
  | .root a => by simp [UpdateList.rename, KleeArray.rename]
  | .node i v next => by
    simp only [UpdateList.rename, Expr.rename_id i, Expr.rename_id v, UpdateList.rename_id next]
end

/-- The arrays of `S` go to distinct symbolic arrays of their sizes. -/
structure IsRenaming (f : KleeArray → KleeArray) (S : Set KleeArray) : Prop where
  symbolic : ∀ a ∈ S, (f a).isSymbolicArray = true
  size : ∀ a ∈ S, (f a).size = a.size
  injOn : Set.InjOn f S

theorem IsRenaming.mono {f : KleeArray → KleeArray} {S T : Set KleeArray} (h : IsRenaming f T)
    (hST : S ⊆ T) : IsRenaming f S :=
  ⟨fun a ha => h.symbolic a (hST ha), fun a ha => h.size a (hST ha), h.injOn.mono hST⟩

/-- All symbolic arrays. -/
def symbolicArrays : Set KleeArray := {a | a.isSymbolicArray = true}

section

variable (f : KleeArray → KleeArray)

@[simp] theorem Expr.rename_constant (c : APInt) : (Expr.constant c).rename f = .constant c := by
  simp only [Expr.rename]

@[simp] theorem Expr.rename_alloc (v w : ℕ) : (Expr.alloc v w).rename f = .alloc v w :=
  Expr.rename_constant f _

@[simp] theorem Expr.rename_binary (k : BinaryKind) (l r : Expr) :
    (Expr.binary k l r).rename f = .binary k (l.rename f) (r.rename f) := by
  simp only [Expr.rename]

@[simp] theorem Expr.getWidth_rename : ∀ e : Expr, (e.rename f).getWidth = e.getWidth
  | .constant _ | .read _ _ | .extract _ _ _ | .cast _ _ _ => by
    simp only [Expr.rename, Expr.getWidth]
  | .notOptimized e | .not e => by simp only [Expr.rename, Expr.getWidth, getWidth_rename e]
  | .select _ t _ => by simp only [Expr.rename, Expr.getWidth, getWidth_rename t]
  | .concat l r => by
    simp only [Expr.rename, Expr.getWidth, getWidth_rename l, getWidth_rename r]
  | .binary _ l _ => by simp only [Expr.rename, Expr.getWidth, getWidth_rename l]

@[simp] theorem Expr.isConstant_rename (e : Expr) : (e.rename f).isConstant = e.isConstant := by
  cases e <;> simp only [Expr.rename, Expr.isConstant]

@[simp] theorem UpdateList.array_rename : ∀ u : UpdateList, (u.rename f).array = u.array.rename f
  | .root _ => by simp only [UpdateList.rename, UpdateList.array]
  | .node _ _ next => by simp only [UpdateList.rename, UpdateList.array, array_rename next]

variable {f}

@[simp] theorem Expr.rename_eq_constant {e : Expr} {c : APInt} :
    e.rename f = .constant c ↔ e = .constant c := by
  cases e <;> simp [Expr.rename]

theorem Expr.rename_ne_constant {e : Expr} (h : ∀ c, e = .constant c → False) (c : APInt) :
    e.rename f = .constant c → False :=
  fun he => h c (Expr.rename_eq_constant.mp he)

theorem Expr.rename_eq_binary {e l r : Expr} {k : BinaryKind} (h : e.rename f = .binary k l r) :
    ∃ a b, e = .binary k a b ∧ l = a.rename f ∧ r = b.rename f := by
  cases e <;> simp_all [Expr.rename]

theorem Expr.rename_eq_binary_constant {e r : Expr} {k : BinaryKind} {c : APInt}
    (h : e.rename f = .binary k (.constant c) r) :
    ∃ b, e = .binary k (.constant c) b ∧ r = b.rename f := by
  obtain ⟨a, b, rfl, ha, hb⟩ := Expr.rename_eq_binary h
  rw [Expr.rename_eq_constant.mp ha.symm]
  exact ⟨b, rfl, hb⟩

theorem Expr.rename_eq_cast {e s : Expr} {k : CastKind} {w : ℕ} (h : e.rename f = .cast k s w) :
    ∃ a, e = .cast k a w ∧ s = a.rename f := by
  cases e <;> simp_all [Expr.rename]

theorem Expr.rename_eq_extract {e s : Expr} {off w : ℕ} (h : e.rename f = .extract s off w) :
    ∃ a, e = .extract a off w ∧ s = a.rename f := by
  cases e <;> simp_all [Expr.rename]

mutual
theorem Expr.rename_congr {f g : KleeArray → KleeArray} :
    ∀ e : Expr, (∀ a ∈ e.symbolicRoots, f a = g a) → e.rename f = e.rename g
  | .constant _, _ => by simp only [Expr.rename]
  | .notOptimized e, h | .extract e _ _, h | .not e, h | .cast _ e _, h => by
    simp only [Expr.symbolicRoots] at h
    simp only [Expr.rename, Expr.rename_congr e h]
  | .read u i, h => by
    obtain ⟨hu, hi⟩ := ((hereditary_roots _).read u i).mp h
    simp only [Expr.rename, UpdateList.rename_congr u hu, Expr.rename_congr i hi]
  | .select c t e, h => by
    obtain ⟨hc, ht, he⟩ := ((hereditary_roots _).select c t e).mp h
    simp only [Expr.rename, Expr.rename_congr c hc, Expr.rename_congr t ht, Expr.rename_congr e he]
  | .concat l r, h => by
    obtain ⟨hl, hr⟩ := ((hereditary_roots _).concat l r).mp h
    simp only [Expr.rename, Expr.rename_congr l hl, Expr.rename_congr r hr]
  | .binary k l r, h => by
    obtain ⟨hl, hr⟩ := (roots_binary _ k l r).mp h
    simp only [Expr.rename, Expr.rename_congr l hl, Expr.rename_congr r hr]
theorem UpdateList.rename_congr {f g : KleeArray → KleeArray} :
    ∀ u : UpdateList, (∀ a ∈ u.symbolicRoots, f a = g a) → u.rename f = u.rename g
  | .root a, h => by
    simp only [UpdateList.rename, KleeArray.rename]
    split_ifs with ha
    · rw [h a (by simp [UpdateList.symbolicRoots, ha])]
    · rfl
  | .node i v next, h => by
    obtain ⟨hi, hv, hn⟩ := ((hereditary_roots _).node i v next).mp h
    simp only [UpdateList.rename, Expr.rename_congr i hi, Expr.rename_congr v hv,
      UpdateList.rename_congr next hn]
end

/-- Without symbolic arrays there is nothing to rename. -/
theorem Expr.rename_of_symbolicRoots_eq_nil {e : Expr} (h : e.symbolicRoots = []) :
    e.rename f = e :=
  (Expr.rename_congr e (by simp [h])).trans e.rename_id

mutual
theorem Expr.symbolicRoots_rename : ∀ e : Expr,
    (∀ a ∈ e.symbolicRoots, (f a).isSymbolicArray = true) →
      (e.rename f).symbolicRoots = e.symbolicRoots.map f
  | .constant _, _ => by simp only [Expr.rename, Expr.symbolicRoots, List.map_nil]
  | .notOptimized e, h | .extract e _ _, h | .not e, h | .cast _ e _, h => by
    simp only [Expr.symbolicRoots] at h
    simp only [Expr.rename, Expr.symbolicRoots, Expr.symbolicRoots_rename e h]
  | .read u i, h => by
    obtain ⟨hu, hi⟩ := ((hereditary_roots _).read u i).mp h
    simp only [Expr.rename, Expr.symbolicRoots, UpdateList.symbolicRoots_rename u hu,
      Expr.symbolicRoots_rename i hi, List.map_append]
  | .select c t e, h => by
    obtain ⟨hc, ht, he⟩ := ((hereditary_roots _).select c t e).mp h
    simp only [Expr.rename, Expr.symbolicRoots, Expr.symbolicRoots_rename c hc,
      Expr.symbolicRoots_rename t ht, Expr.symbolicRoots_rename e he, List.map_append]
  | .concat l r, h => by
    obtain ⟨hl, hr⟩ := ((hereditary_roots _).concat l r).mp h
    simp only [Expr.rename, Expr.symbolicRoots, Expr.symbolicRoots_rename l hl,
      Expr.symbolicRoots_rename r hr, List.map_append]
  | .binary k l r, h => by
    obtain ⟨hl, hr⟩ := (roots_binary _ k l r).mp h
    simp only [Expr.rename, Expr.symbolicRoots, Expr.symbolicRoots_rename l hl,
      Expr.symbolicRoots_rename r hr, List.map_append]
theorem UpdateList.symbolicRoots_rename : ∀ u : UpdateList,
    (∀ a ∈ u.symbolicRoots, (f a).isSymbolicArray = true) →
      (u.rename f).symbolicRoots = u.symbolicRoots.map f
  | .root a, h => by
    cases ha : a.isSymbolicArray with
    | true =>
      have hf := h a (by simp [UpdateList.symbolicRoots, ha])
      simp [UpdateList.rename, UpdateList.symbolicRoots, KleeArray.rename, ha, hf]
    | false => simp [UpdateList.rename, UpdateList.symbolicRoots, KleeArray.rename, ha]
  | .node i v next, h => by
    obtain ⟨hi, hv, hn⟩ := ((hereditary_roots _).node i v next).mp h
    simp only [UpdateList.rename, UpdateList.symbolicRoots, Expr.symbolicRoots_rename i hi,
      Expr.symbolicRoots_rename v hv, UpdateList.symbolicRoots_rename next hn, List.map_append]
end

theorem Expr.kids_rename {e : Expr} : (e.rename f).kids = e.kids.map (Expr.rename f) := by
  cases e <;> simp only [Expr.rename, Expr.kids, List.map_cons, List.map_nil]

end

/-! ### Injectivity -/

namespace IsRenaming

variable {f : KleeArray → KleeArray} (h : IsRenaming f symbolicArrays)

include h

theorem isSymbolicArray_rename (a : KleeArray) :
    (a.rename f).isSymbolicArray = a.isSymbolicArray := by
  unfold KleeArray.rename
  split_ifs with ha
  · rw [h.symbolic a ha, ha]
  · rfl

theorem array_injective : Function.Injective (KleeArray.rename f) := by
  intro a b hab
  have hsym := congrArg KleeArray.isSymbolicArray hab
  rw [h.isSymbolicArray_rename, h.isSymbolicArray_rename] at hsym
  unfold KleeArray.rename at hab
  rw [← hsym] at hab
  split_ifs at hab with ha
  · exact h.injOn ha (show b.isSymbolicArray = true by rw [← hsym, ha]) hab
  · exact hab

mutual
theorem expr_injective : ∀ e e' : Expr, e.rename f = e'.rename f → e = e'
  | .constant c, e', he => by
    rw [Expr.rename_constant] at he
    exact (Expr.rename_eq_constant.mp he.symm).symm
  | .notOptimized s, e', he => by
    cases e' <;> simp only [Expr.rename, reduceCtorEq, Expr.notOptimized.injEq] at he
    rw [expr_injective s _ he]
  | .read u i, e', he => by
    cases e' <;> simp only [Expr.rename, reduceCtorEq, Expr.read.injEq] at he
    rw [updates_injective u _ he.1, expr_injective i _ he.2]
  | .select c t e, e', he => by
    cases e' <;> simp only [Expr.rename, reduceCtorEq, Expr.select.injEq] at he
    rw [expr_injective c _ he.1, expr_injective t _ he.2.1, expr_injective e _ he.2.2]
  | .concat l r, e', he => by
    cases e' <;> simp only [Expr.rename, reduceCtorEq, Expr.concat.injEq] at he
    rw [expr_injective l _ he.1, expr_injective r _ he.2]
  | .extract e off w, e', he => by
    cases e' <;> simp only [Expr.rename, reduceCtorEq, Expr.extract.injEq] at he
    rw [expr_injective e _ he.1, he.2.1, he.2.2]
  | .not e, e', he => by
    cases e' <;> simp only [Expr.rename, reduceCtorEq, Expr.not.injEq] at he
    rw [expr_injective e _ he]
  | .cast k e w, e', he => by
    cases e' <;> simp only [Expr.rename, reduceCtorEq, Expr.cast.injEq] at he
    rw [expr_injective e _ he.2.1, he.1, he.2.2]
  | .binary k l r, e', he => by
    cases e' <;> simp only [Expr.rename, reduceCtorEq, Expr.binary.injEq] at he
    rw [he.1, expr_injective l _ he.2.1, expr_injective r _ he.2.2]
theorem updates_injective : ∀ u u' : UpdateList, u.rename f = u'.rename f → u = u'
  | .root a, u', hu => by
    cases u' <;> simp only [UpdateList.rename, reduceCtorEq, UpdateList.root.injEq] at hu
    rw [h.array_injective hu]
  | .node i v next, u', hu => by
    cases u' <;> simp only [UpdateList.rename, reduceCtorEq, UpdateList.node.injEq] at hu
    rw [expr_injective i _ hu.1, expr_injective v _ hu.2.1, updates_injective next _ hu.2.2]
end

theorem expr_inj {e e' : Expr} : e.rename f = e'.rename f ↔ e = e' :=
  ⟨h.expr_injective e e', fun he => he ▸ rfl⟩

end IsRenaming

/-! ### Finitely many arrays -/

/-- A renaming of finitely many arrays is part of one of all symbolic arrays. -/
theorem IsRenaming.extend {f : KleeArray → KleeArray} {as : List KleeArray}
    (h : IsRenaming f {a | a ∈ as}) :
    ∃ g, IsRenaming g symbolicArrays ∧ ∀ a ∈ as, g a = f a := by
  obtain ⟨n, hn⟩ := exists_forall_lt (fun a => (f a).ufe) as
  -- the other arrays move to handles that are not in use
  refine ⟨fun a => if a ∈ as then f a else { a with ufe := a.ufe + n }, ⟨?_, ?_, ?_⟩, ?_⟩
  · intro a ha
    split_ifs with hmem
    · exact h.symbolic a hmem
    · exact ha
  · intro a ha
    split_ifs with hmem
    · exact h.size a hmem
    · rfl
  · intro a _ b _ hab
    dsimp only at hab
    split_ifs at hab with ha hb hb
    · exact h.injOn ha hb hab
    · have hufe := congrArg KleeArray.ufe hab
      have := hn a ha
      dsimp only at hufe
      omega
    · have hufe := congrArg KleeArray.ufe hab
      have := hn b hb
      dsimp only at hufe
      omega
    · obtain ⟨hname, hsize, hufe, hvalues⟩ := KleeArray.mk.inj hab
      cases a
      cases b
      simp_all
  · intro a ha
    exact if_pos ha

end TaseVerifier
