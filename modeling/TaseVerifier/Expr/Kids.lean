import Mathlib.Data.List.Basic
import Mathlib.Data.List.Forall2
import TaseVerifier.Expr.Weight
import TaseVerifier.Expr.Defined

/-! The children of a node as the visitors walk them, and the node rebuilt over others. -/

namespace TaseVerifier

/-- `getKid` for the kids in turn. The update list of a read is not among them. -/
def Expr.kids : Expr → List Expr
  | .constant _ => []
  | .notOptimized s => [s]
  | .read _ i => [i]
  | .select c t f => [c, t, f]
  | .concat l r => [l, r]
  | .extract e _ _ => [e]
  | .not e => [e]
  | .cast _ e _ => [e]
  | .binary _ l r => [l, r]

/-- The virtual `rebuild`, over as many kids as the node has. -/
def Expr.rebuild : Expr → List Expr → Except Abort Expr
  | .notOptimized _, [s] => pure (NotOptimizedExpr.create s)
  | .read u _, [i] => pure (ReadExpr.create u i)
  | .select _ _ _, [c, t, f] => pure (SelectExpr.create c t f)
  | .concat _ _, [l, r] => pure (ConcatExpr.create l r)
  | .extract _ off w, [e] => pure (ExtractExpr.create e off w)
  | .not _, [e] => pure (NotExpr.create e)
  | .cast k _ w, [e] => pure (CastExpr.create k e w)
  | .binary k _ _, [l, r] => BinaryExpr.create k l r
  | e, _ => pure e

theorem exists_forall_lt {α : Type} (g : α → ℕ) : ∀ xs : List α, ∃ n, ∀ x ∈ xs, g x < n
  | [] => ⟨0, by simp⟩
  | x :: xs => by
    obtain ⟨n, hn⟩ := exists_forall_lt g xs
    refine ⟨max n (g x + 1), List.forall_mem_cons.mpr ⟨by omega, fun y hy => ?_⟩⟩
    have := hn y hy
    omega

theorem mapM_eq_ok {ε α β : Type} {g : α → Except ε β} {xs : List α} {ys : List β} :
    xs.mapM g = .ok ys ↔ List.Forall₂ (fun x y => g x = .ok y) xs ys := by
  induction xs generalizing ys with
  | nil =>
    rw [List.mapM_nil, List.forall₂_nil_left_iff]
    exact ⟨fun h => by cases h; rfl, fun h => h ▸ rfl⟩
  | cons x xs ih =>
    rw [List.mapM_cons, ExprReplaceVisitor.bind_eq_ok]
    constructor
    · rintro ⟨y, hy, h⟩
      obtain ⟨ys', hys, h⟩ := ExprReplaceVisitor.bind_eq_ok.mp h
      cases h
      exact .cons hy (ih.mp hys)
    · rintro (_ | ⟨hy, hys⟩)
      exact ⟨_, hy, ExprReplaceVisitor.bind_eq_ok.mpr ⟨_, ih.mpr hys, rfl⟩⟩

theorem exists_of_mem_mapM {ε α β : Type} {g : α → Except ε β} {xs : List α} {ys : List β}
    (h : xs.mapM g = .ok ys) {y : β} (hy : y ∈ ys) : ∃ x ∈ xs, g x = .ok y := by
  have hall := mapM_eq_ok.mp h
  clear h
  induction hall with
  | nil => cases hy
  | cons hx _ ih =>
    rcases List.mem_cons.mp hy with rfl | hy
    · exact ⟨_, List.mem_cons_self, hx⟩
    · obtain ⟨x, hmem, hx⟩ := ih hy
      exact ⟨x, List.mem_cons_of_mem _ hmem, hx⟩

namespace Expr

theorem wellTyped_kids {e : Expr} (h : e.wellTyped = true) : ∀ k ∈ e.kids, k.wellTyped = true := by
  cases e with
  | binary k l r =>
    obtain ⟨hl, hr, -⟩ := wellTyped_operands h
    simp [kids, hl, hr]
  | _ => simp_all [kids, wellTyped]

theorem weight_kids {e k : Expr} (h : k ∈ e.kids) : k.weight < e.weight := by
  cases e with
  | binary b l r =>
    have hb := b.weight_pos
    simp only [kids, List.mem_cons, List.not_mem_nil, or_false] at h
    rcases h with rfl | rfl <;> simp only [weight] <;> omega
  | constant c => simp [kids] at h
  | select c t f =>
    simp only [kids, List.mem_cons, List.not_mem_nil, or_false] at h
    rcases h with rfl | rfl | rfl <;> simp only [weight] <;> omega
  | concat l r =>
    simp only [kids, List.mem_cons, List.not_mem_nil, or_false] at h
    rcases h with rfl | rfl <;> simp only [weight] <;> omega
  | _ =>
    obtain rfl := List.mem_singleton.mp h
    simp only [weight]
    omega

/-- The symbolic arrays of a node that is not a read are those of its kids. -/
theorem roots_kids {e : Expr} (h : ∀ u i, e ≠ .read u i) (p : KleeArray → Prop) :
    (∀ a ∈ e.symbolicRoots, p a) ↔ ∀ k ∈ e.kids, ∀ a ∈ k.symbolicRoots, p a := by
  cases e with
  | read u i => exact absurd rfl (h u i)
  | _ => simp [kids, symbolicRoots, or_imp, forall_and]

mutual
theorem expr_induction {P : Expr → Prop} {Q : UpdateList → Prop}
    (read : ∀ u i, Q u → P i → P (.read u i))
    (other : ∀ e, (∀ u i, e ≠ .read u i) → (∀ k ∈ e.kids, P k) → P e)
    (root : ∀ a, Q (.root a)) (node : ∀ i v next, P i → P v → Q next → Q (.node i v next)) :
    ∀ e : Expr, P e
  | .constant c => other _ (by simp) (by simp [kids])
  | .read u i => read u i (updates_induction read other root node u)
      (expr_induction read other root node i)
  | .notOptimized e | .extract e _ _ | .not e | .cast _ e _ =>
    other _ (by simp) (by simpa [kids] using expr_induction read other root node e)
  | .select c t e => other _ (by simp) (by
      simpa [kids] using ⟨expr_induction read other root node c,
        expr_induction read other root node t, expr_induction read other root node e⟩)
  | .concat l r | .binary _ l r => other _ (by simp) (by
      simpa [kids] using ⟨expr_induction read other root node l,
        expr_induction read other root node r⟩)
theorem updates_induction {P : Expr → Prop} {Q : UpdateList → Prop}
    (read : ∀ u i, Q u → P i → P (.read u i))
    (other : ∀ e, (∀ u i, e ≠ .read u i) → (∀ k ∈ e.kids, P k) → P e)
    (root : ∀ a, Q (.root a)) (node : ∀ i v next, P i → P v → Q next → Q (.node i v next)) :
    ∀ u : UpdateList, Q u
  | .root a => root a
  | .node i v next => node i v next (expr_induction read other root node i)
      (expr_induction read other root node v) (updates_induction read other root node next)
end

/-- Induction over expressions and update lists, where the nodes other than reads are
treated alike. -/
theorem kids_induction {P : Expr → Prop} {Q : UpdateList → Prop}
    (read : ∀ u i, Q u → P i → P (.read u i))
    (other : ∀ e, (∀ u i, e ≠ .read u i) → (∀ k ∈ e.kids, P k) → P e)
    (root : ∀ a, Q (.root a)) (node : ∀ i v next, P i → P v → Q next → Q (.node i v next)) :
    (∀ e, P e) ∧ ∀ u, Q u :=
  ⟨expr_induction read other root node, updates_induction read other root node⟩

/-- A property of symbolic arrays passes to the rebuilt node. -/
theorem roots_rebuild {p : KleeArray → Prop} {e e₁ : Expr} {ks : List Expr}
    (hne : ∀ u i, e ≠ .read u i) (hlen : ks.length = e.kids.length)
    (hks : ∀ k ∈ ks, ∀ a ∈ k.symbolicRoots, p a) (h : e.rebuild ks = .ok e₁) :
    ∀ a ∈ e₁.symbolicRoots, p a := by
  have H := hereditary_roots p
  cases e with
  | read u i => exact absurd rfl (hne u i)
  | constant c =>
    cases h
    exact H.constant c
  | notOptimized s =>
    obtain ⟨s', rfl⟩ := List.length_eq_one_iff.mp hlen
    cases h
    exact (H.notOptimized s').mpr (hks s' (by simp))
  | select c t f =>
    obtain ⟨c', t', f', rfl⟩ := List.length_eq_three.mp hlen
    cases h
    exact H.select_create (hks c' (by simp)) (hks t' (by simp)) (hks f' (by simp))
  | concat l r =>
    obtain ⟨l', r', rfl⟩ := List.length_eq_two.mp hlen
    cases h
    exact H.concat_create (hks l' (by simp)) (hks r' (by simp))
  | extract e off w =>
    obtain ⟨e', rfl⟩ := List.length_eq_one_iff.mp hlen
    cases h
    exact H.extract_create off w (hks e' (by simp))
  | not e =>
    obtain ⟨e', rfl⟩ := List.length_eq_one_iff.mp hlen
    cases h
    exact H.not_create (hks e' (by simp))
  | cast k e w =>
    obtain ⟨e', rfl⟩ := List.length_eq_one_iff.mp hlen
    cases h
    exact H.cast_create w (hks e' (by simp))
  | binary k l r =>
    obtain ⟨l', r', rfl⟩ := List.length_eq_two.mp hlen
    exact H.binary_create_all (roots_binary p) (hks l' (by simp)) (hks r' (by simp)) h

theorem onlyDivides_rebuild (e : Expr) (ks : List Expr) :
    ExprReplaceVisitor.OnlyDivides (e.rebuild ks) := by
  unfold Expr.rebuild
  split <;> first | exact ExprReplaceVisitor.onlyDivides_pure _
                  | exact ExprReplaceVisitor.onlyDivides_create _ _ _

end Expr

end TaseVerifier
