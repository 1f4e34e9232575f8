import TaseVerifier.Expr.RenameCreate
import TaseVerifier.Solver.CanonicalSpec

/-! The canonical form of an expression over a renaming of its arrays: the nodes above an
array are rebuilt by their constructors. The renaming itself comes from numbering the
arrays of each size in the order in which a visit meets them. -/

namespace TaseVerifier

/-! ### The form over a renaming -/

/-- The end of `visitActual`, for a node whose rebuilt form is not visited again. -/
def Expr.rebuilt (e : Expr) (ks : List Expr) : Except Abort Expr :=
  if ks = e.kids then pure e else e.rebuild ks

mutual
/-- What a visit returns when `f` is the renaming: a read is built anew by its constructor, any
other node only if one of its kids has changed. -/
def Expr.form (f : KleeArray → KleeArray) : Expr → Except Abort Expr
  | .constant c => pure (.constant c)
  | .notOptimized s => do
    let s' ← s.form f
    (Expr.notOptimized s).rebuilt [s']
  | .read u i => do
    let u' ← u.form f
    let i' ← i.form f
    pure (ReadExpr.create u' i')
  | .select c t e => do
    let c' ← c.form f
    let t' ← t.form f
    let e' ← e.form f
    (Expr.select c t e).rebuilt [c', t', e']
  | .concat l r => do
    let l' ← l.form f
    let r' ← r.form f
    (Expr.concat l r).rebuilt [l', r']
  | .extract e off w => do
    let e' ← e.form f
    (Expr.extract e off w).rebuilt [e']
  | .not e => do
    let e' ← e.form f
    (Expr.not e).rebuilt [e']
  | .cast k e w => do
    let e' ← e.form f
    (Expr.cast k e w).rebuilt [e']
  | .binary k l r => do
    let l' ← l.form f
    let r' ← r.form f
    (Expr.binary k l r).rebuilt [l', r']
def UpdateList.form (f : KleeArray → KleeArray) : UpdateList → Except Abort UpdateList
  | .root a => pure (.root (a.rename f))
  | .node i v next => do
    let next' ← next.form f
    let i' ← i.form f
    let v' ← v.form f
    pure (next'.extend i' v')
end

theorem Expr.form_kids {f : KleeArray → KleeArray} {e : Expr} (h : ∀ u i, e ≠ .read u i) :
    e.form f = e.kids.mapM (Expr.form f) >>= e.rebuilt := by
  cases e with
  | read u i => exact absurd rfl (h u i)
  | constant c => simp [Expr.form, Expr.kids, Expr.rebuilt]
  | _ => simp [Expr.form, Expr.kids]

mutual
theorem Expr.form_congr {f g : KleeArray → KleeArray} :
    ∀ e : Expr, (∀ a ∈ e.symbolicRoots, f a = g a) → e.form f = e.form g
  | .constant _, _ => by simp only [Expr.form]
  | .notOptimized e, h | .extract e _ _, h | .not e, h | .cast _ e _, h => by
    simp only [Expr.symbolicRoots] at h
    simp only [Expr.form, Expr.form_congr e h]
  | .read u i, h => by
    obtain ⟨hu, hi⟩ := ((hereditary_roots _).read u i).mp h
    simp only [Expr.form, UpdateList.form_congr u hu, Expr.form_congr i hi]
  | .select c t e, h => by
    obtain ⟨hc, ht, he⟩ := ((hereditary_roots _).select c t e).mp h
    simp only [Expr.form, Expr.form_congr c hc, Expr.form_congr t ht, Expr.form_congr e he]
  | .concat l r, h => by
    obtain ⟨hl, hr⟩ := ((hereditary_roots _).concat l r).mp h
    simp only [Expr.form, Expr.form_congr l hl, Expr.form_congr r hr]
  | .binary k l r, h => by
    obtain ⟨hl, hr⟩ := (roots_binary _ k l r).mp h
    simp only [Expr.form, Expr.form_congr l hl, Expr.form_congr r hr]
theorem UpdateList.form_congr {f g : KleeArray → KleeArray} :
    ∀ u : UpdateList, (∀ a ∈ u.symbolicRoots, f a = g a) → u.form f = u.form g
  | .root a, h => by
    have hroot : (UpdateList.root a).rename f = (UpdateList.root a).rename g :=
      UpdateList.rename_congr _ h
    simp only [UpdateList.rename] at hroot
    simp only [UpdateList.form, hroot]
  | .node i v next, h => by
    obtain ⟨hi, hv, hn⟩ := ((hereditary_roots _).node i v next).mp h
    simp only [UpdateList.form, Expr.form_congr i hi, Expr.form_congr v hv,
      UpdateList.form_congr next hn]
end

/-- A settled expression without symbolic arrays stays. -/
theorem form_of_settled (f : KleeArray → KleeArray) :
    (∀ e : Expr, e.Settled → e.symbolicRoots = [] → e.form f = .ok e) ∧
      ∀ u : UpdateList, u.Settled → u.symbolicRoots = [] → u.form f = .ok u := by
  refine Expr.kids_induction (fun u i hu hi hs hr => ?_) (fun e hne ih hs hr => ?_) (fun a _ hr => ?_)
    fun i v next hi hv hn hs hr => ?_
  · simp only [Expr.Settled] at hs
    simp only [Expr.symbolicRoots, List.append_eq_nil_iff] at hr
    have hconst : u.array.isSymbolicArray ≠ true := fun hsym => by
      have hmem := UpdateList.array_mem_symbolicRoots hsym
      rw [hr.1] at hmem
      cases hmem
    simp only [Expr.form, hu hs.1 hr.1, hi hs.2.1 hr.2]
    exact congrArg Except.ok (hs.2.2.resolve_left hconst)
  · have hroots : ∀ k ∈ e.kids, k.symbolicRoots = [] := by
      have hnone := (Expr.roots_kids hne fun _ => False).mp (by simp [hr])
      exact fun k hk => List.eq_nil_iff_forall_not_mem.mpr fun a ha => hnone k hk a ha
    have hkids : e.kids.mapM (Expr.form f) = .ok e.kids := by
      rw [mapM_eq_ok, List.forall₂_same]
      exact fun k hk => ih k hk ((Expr.settled_kids hne).mp hs k hk) (hroots k hk)
    rw [Expr.form_kids hne, hkids]
    exact if_pos rfl
  · have hconst : a.isSymbolicArray = false := by
      by_contra hsym
      simp [UpdateList.symbolicRoots, hsym] at hr
    simp [UpdateList.form, KleeArray.rename, hconst]
    rfl
  · simp only [UpdateList.Settled] at hs
    simp only [UpdateList.symbolicRoots, List.append_eq_nil_iff] at hr
    simp only [UpdateList.form, hn hs.2.2 hr.2, hi hs.1 hr.1.1, hv hs.2.1 hr.1.2]
    rfl

theorem Expr.roots_rebuilt {p : KleeArray → Prop} {e e₁ : Expr} {ks : List Expr}
    (hne : ∀ u i, e ≠ .read u i) (hlen : ks.length = e.kids.length)
    (hks : ∀ k ∈ ks, ∀ a ∈ k.symbolicRoots, p a) (h : e.rebuilt ks = .ok e₁) :
    ∀ a ∈ e₁.symbolicRoots, p a := by
  unfold Expr.rebuilt at h
  split_ifs at h with hsame
  · cases h
    exact (Expr.roots_kids hne p).mpr (hsame ▸ hks)
  · exact Expr.roots_rebuild hne hlen hks h

/-- The arrays of the form are the new ones. -/
theorem roots_form {f : KleeArray → KleeArray} {p : KleeArray → Prop} :
    (∀ e : Expr, ∀ e', e.form f = .ok e' → (∀ a ∈ e.symbolicRoots, (f a).isSymbolicArray = true ∧ p (f a)) →
      ∀ a ∈ e'.symbolicRoots, p a) ∧
    ∀ u : UpdateList, ∀ u', u.form f = .ok u' →
      (∀ a ∈ u.symbolicRoots, (f a).isSymbolicArray = true ∧ p (f a)) → ∀ a ∈ u'.symbolicRoots, p a := by
  have H := hereditary_roots p
  refine Expr.kids_induction (fun u i hu hi e' he hf => ?_) (fun e hne ih e' he hf => ?_)
    (fun a u' hu hf => ?_) fun i v next hi hv hn u' hu hf => ?_
  · obtain ⟨hfu, hfi⟩ := ((hereditary_roots _).read u i).mp hf
    simp only [Expr.form] at he
    obtain ⟨u', hu', he⟩ := ExprReplaceVisitor.bind_eq_ok.mp he
    obtain ⟨i', hi', he⟩ := ExprReplaceVisitor.bind_eq_ok.mp he
    cases he
    exact H.read_create (hu u' hu' hfu) (hi i' hi' hfi)
  · rw [Expr.form_kids hne] at he
    obtain ⟨ks, hks, he⟩ := ExprReplaceVisitor.bind_eq_ok.mp he
    refine Expr.roots_rebuilt hne (mapM_eq_ok.mp hks).length_eq.symm (fun k' hk' => ?_) he
    obtain ⟨k, hk, hform⟩ := exists_of_mem_mapM hks hk'
    exact ih k hk k' hform ((Expr.roots_kids hne _).mp hf k hk)
  · simp only [UpdateList.form] at hu
    cases hu
    cases ha : a.isSymbolicArray with
    | true =>
      have hfa := hf a (by simp [UpdateList.symbolicRoots, ha])
      simpa [UpdateList.symbolicRoots, KleeArray.rename, ha, hfa.1] using hfa.2
    | false => simp [UpdateList.symbolicRoots, KleeArray.rename, ha]
  · obtain ⟨hfi, hfv, hfn⟩ := ((hereditary_roots _).node i v next).mp hf
    simp only [UpdateList.form] at hu
    obtain ⟨next', hn', hu⟩ := ExprReplaceVisitor.bind_eq_ok.mp hu
    obtain ⟨i', hi', hu⟩ := ExprReplaceVisitor.bind_eq_ok.mp hu
    obtain ⟨v', hv', hu⟩ := ExprReplaceVisitor.bind_eq_ok.mp hu
    cases hu
    exact (H.node i' v' next').mpr ⟨hi i' hi' hfi, hv v' hv' hfv, hn next' hn' hfn⟩

/-! ### Renamed queries -/

/-- Rebuilding looks at the kind of the node only. -/
theorem Expr.rebuild_of_rename (f : KleeArray → KleeArray) {e : Expr} {ks : List Expr}
    (hread : ∀ u i, e ≠ .read u i) (hlen : ks.length = e.kids.length) :
    (e.rename f).rebuild ks = e.rebuild ks := by
  cases e with
  | constant c => rw [Expr.rename_constant]
  | read u i => exact absurd rfl (hread u i)
  | select c t e =>
    obtain ⟨c', t', f', rfl⟩ := List.length_eq_three.mp hlen
    simp only [Expr.rename, Expr.rebuild]
  | concat l r | binary k l r =>
    obtain ⟨l', r', rfl⟩ := List.length_eq_two.mp hlen
    simp only [Expr.rename, Expr.rebuild]
  | _ =>
    obtain ⟨e', rfl⟩ := List.length_eq_one_iff.mp hlen
    simp only [Expr.rename, Expr.rebuild]

theorem Expr.rename_ne_read (f : KleeArray → KleeArray) {e : Expr} (h : ∀ u i, e ≠ .read u i)
    (u : UpdateList) (i : Expr) : e.rename f ≠ .read u i := by
  cases e with
  | read u i => exact absurd rfl (h u i)
  | _ => simp [Expr.rename]

theorem mapM_map_congr {ε α β γ : Type} {r : α → γ} {g : α → Except ε β} {g' : γ → Except ε β} :
    ∀ {xs : List α}, (∀ x ∈ xs, g' (r x) = g x) → (xs.map r).mapM g' = xs.mapM g
  | [], _ => rfl
  | x :: xs, h => by
    obtain ⟨hx, hxs⟩ := List.forall_mem_cons.mp h
    rw [List.map_cons, List.mapM_cons, List.mapM_cons, hx, mapM_map_congr hxs]

/-- `f` takes the arrays of a query to others outside `C`, and `g` and `g'` take both to
the same arrays of `C`. -/
structure Meets (C : KleeArray → Prop) (f g g' : KleeArray → KleeArray) (a : KleeArray) : Prop where
  out : ¬ C a
  out' : ¬ C (f a)
  symbolic : (f a).isSymbolicArray = true
  symbolic' : (g a).isSymbolicArray = true
  into : C (g a)
  same : g' (f a) = g a

section

variable {C : KleeArray → Prop} {f g g' : KleeArray → KleeArray}

/-- Kids that became arrays of `C` have changed, in the query and in the renamed one. -/
theorem rebuilt_of_rename {e : Expr} {ks : List Expr} (hne : ∀ u i, e ≠ .read u i)
    (hm : ∀ a ∈ e.symbolicRoots, Meets C f g g' a) (hks : e.kids.mapM (Expr.form g) = .ok ks) :
    (e.rename f).rebuilt ks = e.rebuilt ks := by
  by_cases hnil : e.symbolicRoots = []
  · rw [Expr.rename_of_symbolicRoots_eq_nil hnil]
  · have hkm := (Expr.roots_kids hne _).mp hm
    obtain ⟨k, hk, a, ha⟩ : ∃ k ∈ e.kids, ∃ a, a ∈ k.symbolicRoots := by
      by_contra hno
      push Not at hno
      have hempty := (Expr.roots_kids hne fun _ => False).mpr hno
      exact hnil (List.eq_nil_iff_forall_not_mem.mpr hempty)
    have hC : ∀ k' ∈ ks, ∀ b ∈ k'.symbolicRoots, C b := by
      intro k' hk'
      obtain ⟨k₀, hk₀, hform⟩ := exists_of_mem_mapM hks hk'
      exact roots_form.1 k₀ k' hform fun b hb => ⟨(hkm k₀ hk₀ b hb).symbolic', (hkm k₀ hk₀ b hb).into⟩
    have h₁ : ks ≠ e.kids := fun heq => (hkm k hk a ha).out (hC k (heq ▸ hk) a ha)
    have h₂ : ks ≠ (e.rename f).kids := by
      intro heq
      rw [Expr.kids_rename] at heq
      have hmem : k.rename f ∈ ks := heq ▸ List.mem_map_of_mem hk
      refine (hkm k hk a ha).out' (hC _ hmem (f a) ?_)
      rw [k.symbolicRoots_rename fun b hb => (hkm k hk b hb).symbolic]
      exact List.mem_map_of_mem ha
    rw [Expr.rebuilt, Expr.rebuilt, if_neg h₁, if_neg h₂,
      Expr.rebuild_of_rename f hne (mapM_eq_ok.mp hks).length_eq.symm]

/-- Both queries have one form. -/
theorem form_rename : (∀ e : Expr, (∀ a ∈ e.symbolicRoots, Meets C f g g' a) →
      (e.rename f).form g' = e.form g) ∧
    ∀ u : UpdateList, (∀ a ∈ u.symbolicRoots, Meets C f g g' a) →
      (u.rename f).form g' = u.form g := by
  refine Expr.kids_induction (fun u i hu hi hm => ?_) (fun e hne ih hm => ?_) (fun a hm => ?_)
    fun i v next hi hv hn hm => ?_
  · obtain ⟨hmu, hmi⟩ := ((hereditary_roots _).read u i).mp hm
    simp only [Expr.rename, Expr.form, hu hmu, hi hmi]
  · have hne' := Expr.rename_ne_read f hne
    have hkids := mapM_map_congr fun k hk => ih k hk ((Expr.roots_kids hne _).mp hm k hk)
    rw [Expr.form_kids hne', Expr.form_kids hne, Expr.kids_rename, hkids]
    cases hks : e.kids.mapM (Expr.form g) with
    | error err => rfl
    | ok ks => exact rebuilt_of_rename hne hm hks
  · cases ha : a.isSymbolicArray with
    | true =>
      have h := hm a (by simp [UpdateList.symbolicRoots, ha])
      simp [UpdateList.rename, UpdateList.form, KleeArray.rename, ha, h.symbolic, h.same]
    | false => simp [UpdateList.rename, UpdateList.form, KleeArray.rename, ha]
  · obtain ⟨hmi, hmv, hmn⟩ := ((hereditary_roots _).node i v next).mp hm
    simp only [UpdateList.rename, UpdateList.form, hi hmi, hv hmv, hn hmn]

end

/-! ### Normal expressions -/

mutual
/-- Every node is what its constructor makes of its parts. -/
def Expr.Normal : Expr → Prop
  | .constant _ => True
  | .notOptimized s => s.Normal
  | .read u i => u.Normal ∧ i.Normal ∧ ReadExpr.create u i = .read u i
  | .select c t f => c.Normal ∧ t.Normal ∧ f.Normal ∧ SelectExpr.create c t f = .select c t f
  | .concat l r => l.Normal ∧ r.Normal ∧ ConcatExpr.create l r = .concat l r
  | .extract e off w => e.Normal ∧ ExtractExpr.create e off w = .extract e off w
  | .not e => e.Normal ∧ NotExpr.create e = .not e
  | .cast k e w => e.Normal ∧ CastExpr.create k e w = .cast k e w
  | .binary k l r => l.Normal ∧ r.Normal ∧ BinaryExpr.create k l r = .ok (.binary k l r)
def UpdateList.Normal : UpdateList → Prop
  | .root _ => True
  | .node i v next => i.Normal ∧ v.Normal ∧ next.Normal
end

theorem Expr.normal_kids {e : Expr} (hne : ∀ u i, e ≠ .read u i) :
    e.Normal ↔ (∀ k ∈ e.kids, k.Normal) ∧ e.rebuild e.kids = .ok e := by
  have hpure : ∀ {x y : Expr}, (pure x : Except Abort Expr) = .ok y ↔ x = y :=
    ⟨fun h => by cases h; rfl, fun h => h ▸ rfl⟩
  cases e with
  | read u i => exact absurd rfl (hne u i)
  | constant c => simp [Expr.kids, Expr.rebuild, Expr.Normal, hpure]
  | notOptimized s => simp [Expr.kids, Expr.rebuild, Expr.Normal, NotOptimizedExpr.create, hpure]
  | _ => simp [Expr.kids, Expr.rebuild, Expr.Normal, hpure, and_assoc]

theorem Expr.rename_eq_self_of_kids {f : KleeArray → KleeArray} {e : Expr}
    (hne : ∀ u i, e ≠ .read u i) (h : e.kids.map (Expr.rename f) = e.kids) : e.rename f = e := by
  cases e with
  | read u i => exact absurd rfl (hne u i)
  | _ => simp_all [Expr.kids, Expr.rename]

/-- The form of a normal expression is the expression renamed. -/
theorem form_of_normal {f : KleeArray → KleeArray} (h : IsRenaming f symbolicArrays) :
    (∀ e : Expr, e.Normal → e.form f = .ok (e.rename f)) ∧
      ∀ u : UpdateList, u.Normal → u.form f = .ok (u.rename f) := by
  refine Expr.kids_induction (fun u i hu hi hn => ?_) (fun e hne ih hn => ?_) (fun a _ => ?_)
    fun i v next hi hv hnext hn => ?_
  · simp only [Expr.Normal] at hn
    simp only [Expr.form, Expr.rename, hu hn.1, hi hn.2.1]
    refine congrArg Except.ok ?_
    rw [ReadExpr.create_rename h, hn.2.2]
    simp only [Expr.rename]
  · obtain ⟨hk, hreb⟩ := (Expr.normal_kids hne).mp hn
    have hkids : e.kids.mapM (Expr.form f) = .ok (e.kids.map (Expr.rename f)) := by
      rw [mapM_eq_ok, List.forall₂_map_right_iff, List.forall₂_same]
      exact fun k hmem => ih k hmem (hk k hmem)
    rw [Expr.form_kids hne, hkids]
    change e.rebuilt _ = _
    unfold Expr.rebuilt
    split_ifs with hsame
    · rw [Expr.rename_eq_self_of_kids hne hsame]
      rfl
    · rw [Expr.rebuild_rename h hne, hreb]
      rfl
  · simp only [UpdateList.form, UpdateList.rename]
    rfl
  · simp only [UpdateList.Normal] at hn
    simp only [UpdateList.form, UpdateList.rename, hnext hn.2.2, hi hn.1, hv hn.2.1]
    rfl

/-- As above, for a renaming of the arrays that occur. -/
theorem Expr.form_normal {f : KleeArray → KleeArray} {e : Expr}
    (h : IsRenaming f {a | a ∈ e.symbolicRoots}) (hn : e.Normal) : e.form f = .ok (e.rename f) := by
  obtain ⟨g, hg, hgf⟩ := h.extend
  rw [Expr.form_congr e fun a ha => (hgf a ha).symm, Expr.rename_congr e fun a ha => (hgf a ha).symm]
  exact (form_of_normal hg).1 e hn

/-! ### Places of arrays -/

mutual
/-- The symbolic arrays in the order in which a visit meets them. -/
def Expr.visitOrder : Expr → List KleeArray
  | .constant _ => []
  | .notOptimized s => s.visitOrder
  | .read u i => (if u.array.isSymbolicArray then [u.array] else []) ++ u.visitOrder ++ i.visitOrder
  | .select c t f => c.visitOrder ++ t.visitOrder ++ f.visitOrder
  | .concat l r => l.visitOrder ++ r.visitOrder
  | .extract e _ _ => e.visitOrder
  | .not e => e.visitOrder
  | .cast _ e _ => e.visitOrder
  | .binary _ l r => l.visitOrder ++ r.visitOrder
/-- The arrays in the nodes of the list; its own root comes before. -/
def UpdateList.visitOrder : UpdateList → List KleeArray
  | .root _ => []
  | .node i v next => next.visitOrder ++ i.visitOrder ++ v.visitOrder
end

theorem Expr.visitOrder_kids {e : Expr} (hne : ∀ u i, e ≠ .read u i) :
    e.visitOrder = e.kids.flatMap Expr.visitOrder := by
  cases e with
  | read u i => exact absurd rfl (hne u i)
  | _ => simp [Expr.visitOrder, Expr.kids]

theorem mem_visitOrder (a : KleeArray) :
    (∀ e : Expr, a ∈ e.visitOrder ↔ a ∈ e.symbolicRoots) ∧
      ∀ u : UpdateList, a ∈ u.symbolicRoots ↔
        a ∈ u.visitOrder ∨ a = u.array ∧ u.array.isSymbolicArray = true := by
  refine Expr.kids_induction (fun u i hu hi => ?_) (fun e hne ih => ?_) (fun b => ?_)
    fun i v next hi hv hn => ?_
  · simp only [Expr.visitOrder, Expr.symbolicRoots, List.mem_append, hi, hu]
    split_ifs with hsym <;> simp [hsym, or_comm]
  · have hroots := (Expr.roots_kids hne (a ≠ ·)).not
    rw [Expr.visitOrder_kids hne, List.mem_flatMap]
    constructor
    · rintro ⟨k, hk, hak⟩
      by_contra hno
      exact hroots.mpr (fun hall => hall k hk a ((ih k hk).mp hak) rfl) fun b hb hab => hno (hab ▸ hb)
    · intro ha
      by_contra hno
      push Not at hno
      refine hroots.mp (fun hall => hall a ha rfl) fun k hk b hb hab => ?_
      exact hno k hk ((ih k hk).mpr (hab ▸ hb))
  · simp only [UpdateList.symbolicRoots, UpdateList.visitOrder, UpdateList.array]
    split_ifs with hsym <;> simp [hsym]
  · simp only [UpdateList.symbolicRoots, UpdateList.visitOrder, UpdateList.array, List.mem_append,
      hn, hi, hv]
    tauto

theorem Expr.mem_visitOrder {e : Expr} {a : KleeArray} : a ∈ e.visitOrder ↔ a ∈ e.symbolicRoots :=
  (TaseVerifier.mem_visitOrder a).1 e

/-- The places handed out so far, and the next place for each size. -/
structure Numbering where
  index : KleeArray → Option ℕ
  next : ℕ → ℕ

namespace Numbering

def empty : Numbering := ⟨fun _ => none, fun _ => 0⟩

/-- An array without a place gets the next one of its size. -/
def add (n : Numbering) (a : KleeArray) : Numbering :=
  match n.index a with
  | some _ => n
  | none => ⟨Function.update n.index a (some (n.next a.size)),
      Function.update n.next a.size (n.next a.size + 1)⟩

def addAll (n : Numbering) (as : List KleeArray) : Numbering := as.foldl add n

/-- The places of `n` are places of `m`. -/
def Le (n m : Numbering) : Prop := ∀ a i, n.index a = some i → m.index a = some i

/-- The arrays that have a place become the canonical array there. -/
def toCanonical (cache : ArrayCache) (n : Numbering) (a : KleeArray) : KleeArray :=
  match n.index a with
  | some i => cache.canonicalArray a.size i
  | none => a

variable {n m : Numbering}

theorem Le.trans {k : Numbering} (h : n.Le m) (h' : m.Le k) : n.Le k :=
  fun a i ha => h' a i (h a i ha)

theorem add_of_some {a : KleeArray} {i : ℕ} (h : n.index a = some i) : n.add a = n := by
  simp only [add, h]

theorem le_add (n : Numbering) (a : KleeArray) : n.Le (n.add a) := by
  intro b i hb
  unfold add
  split
  · exact hb
  next hnone =>
    have hne : b ≠ a := fun heq => by simp [heq, hnone] at hb
    simpa [Function.update_of_ne hne] using hb

theorem index_add (n : Numbering) (a : KleeArray) : ∃ i, (n.add a).index a = some i := by
  unfold add
  split
  next i hi => exact ⟨i, hi⟩
  next => exact ⟨_, Function.update_self ..⟩

theorem addAll_append (n : Numbering) (as bs : List KleeArray) :
    n.addAll (as ++ bs) = (n.addAll as).addAll bs := List.foldl_append

theorem le_addAll (n : Numbering) : ∀ as : List KleeArray, n.Le (n.addAll as) := by
  intro as
  induction as generalizing n with
  | nil => exact fun _ _ h => h
  | cons a as ih => exact (n.le_add a).trans (ih (n.add a))

theorem index_addAll {as : List KleeArray} {a : KleeArray} (h : a ∈ as) :
    ∃ i, (n.addAll as).index a = some i := by
  induction as generalizing n with
  | nil => cases h
  | cons b as ih =>
    rcases List.mem_cons.mp h with rfl | h
    · obtain ⟨i, hi⟩ := n.index_add a
      exact ⟨i, le_addAll _ as a i hi⟩
    · exact ih h

theorem addAll_of_some {as : List KleeArray} (h : ∀ a ∈ as, ∃ i, n.index a = some i) :
    n.addAll as = n := by
  induction as with
  | nil => rfl
  | cons a as ih =>
    obtain ⟨⟨i, hi⟩, has⟩ := List.forall_mem_cons.mp h
    change (n.add a).addAll as = n
    rw [add_of_some hi]
    exact ih has

theorem index_of_addAll {as : List KleeArray} {a : KleeArray} {i : ℕ}
    (h : (n.addAll as).index a = some i) : a ∈ as ∨ n.index a = some i := by
  induction as generalizing n with
  | nil => exact .inr h
  | cons b as ih =>
    rcases ih h with hmem | hb
    · exact .inl (List.mem_cons_of_mem _ hmem)
    · by_cases hab : a = b
      · exact .inl (hab ▸ List.mem_cons_self)
      · unfold add at hb
        split at hb
        · exact .inr hb
        · exact .inr (by simpa [Function.update_of_ne hab] using hb)

theorem toCanonical_of_le {cache : ArrayCache} {a : KleeArray} {i : ℕ} (h : n.Le m)
    (ha : n.index a = some i) : m.toCanonical cache a = n.toCanonical cache a := by
  simp only [toCanonical, ha, h a i ha]

/-- Arrays of one size have different places, below the next one. -/
structure Proper (n : Numbering) : Prop where
  index_lt : ∀ a i, n.index a = some i → i < n.next a.size
  injective : ∀ a b i, a.size = b.size → n.index a = some i → n.index b = some i → a = b

theorem proper_empty : empty.Proper :=
  ⟨fun _ _ h => by simp [empty] at h, fun _ _ _ _ h => by simp [empty] at h⟩

theorem Proper.add (h : n.Proper) (a : KleeArray) : (n.add a).Proper := by
  unfold Numbering.add
  split
  · exact h
  · refine ⟨fun b i hb => ?_, fun b c i hsz hb hc => ?_⟩
    · simp only [Function.update_apply n.next]
      rcases CanonicalVisitor.update_some hb with ⟨rfl, rfl⟩ | ⟨-, hb⟩
      · simp
      · have hi := h.index_lt b i hb
        split_ifs with hs
        · rw [hs] at hi
          omega
        · exact hi
    · rcases CanonicalVisitor.update_some hb with ⟨hb₁, hb₂⟩ | ⟨-, hb'⟩ <;>
        rcases CanonicalVisitor.update_some hc with ⟨hc₁, hc₂⟩ | ⟨-, hc'⟩
      · exact hb₁.trans hc₁.symm
      · have hlt := h.index_lt c i hc'
        rw [← hsz, hb₁] at hlt
        omega
      · have hlt := h.index_lt b i hb'
        rw [hsz, hc₁] at hlt
        omega
      · exact h.injective b c i hsz hb' hc'

theorem Proper.addAll (h : n.Proper) : ∀ as : List KleeArray, (n.addAll as).Proper := by
  intro as
  induction as generalizing n with
  | nil => exact h
  | cons a as ih => exact ih (h.add a)

theorem Proper.isRenaming (cache : ArrayCache) (h : n.Proper) {S : Set KleeArray}
    (hS : ∀ a ∈ S, ∃ i, n.index a = some i) : IsRenaming (n.toCanonical cache) S := by
  have hcan : ∀ a ∈ S, ∃ i, n.index a = some i ∧
      n.toCanonical cache a = cache.canonicalArray a.size i := by
    intro a ha
    obtain ⟨i, hi⟩ := hS a ha
    exact ⟨i, hi, by simp only [toCanonical, hi]⟩
  refine ⟨fun a ha => ?_, fun a ha => ?_, fun a ha b hb hab => ?_⟩
  · obtain ⟨i, -, hi⟩ := hcan a ha
    rw [hi, cache.isSymbolicArray_canonicalArray]
  · obtain ⟨i, -, hi⟩ := hcan a ha
    rw [hi, cache.size_canonicalArray]
  · obtain ⟨i, hi, hia⟩ := hcan a ha
    obtain ⟨j, hj, hjb⟩ := hcan b hb
    rw [hia, hjb] at hab
    obtain ⟨hsz, rfl⟩ := cache.canonicalArray_inj hab
    exact h.injective a b i hsz hi hj

/-- A renaming that keeps sizes apart meets its arrays at the same places. -/
theorem index_addAll_map {f : KleeArray → KleeArray} {S : Set KleeArray} (hf : IsRenaming f S)
    {as : List KleeArray} (has : ∀ a ∈ as, a ∈ S) (hidx : ∀ a ∈ S, m.index (f a) = n.index a)
    (hnext : m.next = n.next) :
    ∀ a ∈ S, (m.addAll (as.map f)).index (f a) = (n.addAll as).index a := by
  induction as generalizing n m with
  | nil => exact hidx
  | cons b as ih =>
    obtain ⟨hb, has⟩ := List.forall_mem_cons.mp has
    refine ih has (fun a ha => ?_) ?_
    · unfold add
      rw [hidx b hb]
      split
      · exact hidx a ha
      · simp only [Function.update_apply, hnext, hf.size b hb]
        by_cases hab : a = b
        · simp [hab]
        · have hne : f a ≠ f b := fun heq => hab (hf.injOn ha hb heq)
          simp [hab, hne, hidx a ha]
    · unfold add
      rw [hidx b hb]
      split
      · exact hnext
      · rw [hnext, hf.size b hb]

end Numbering

theorem visitOrder_rename {f : KleeArray → KleeArray} :
    (∀ e : Expr, (∀ a ∈ e.symbolicRoots, (f a).isSymbolicArray = true) →
      (e.rename f).visitOrder = e.visitOrder.map f) ∧
    ∀ u : UpdateList, (∀ a ∈ u.symbolicRoots, (f a).isSymbolicArray = true) →
      (u.rename f).visitOrder = u.visitOrder.map f := by
  refine Expr.kids_induction (fun u i hu hi hf => ?_) (fun e hne ih hf => ?_) (fun a _ => ?_)
    fun i v next hi hv hn hf => ?_
  · obtain ⟨hfu, hfi⟩ := ((hereditary_roots _).read u i).mp hf
    simp only [Expr.rename, Expr.visitOrder, UpdateList.array_rename, hu hfu, hi hfi,
      List.map_append]
    cases hsym : u.array.isSymbolicArray with
    | true =>
      have hfa := hfu _ (UpdateList.array_mem_symbolicRoots hsym)
      simp [KleeArray.rename, hsym, hfa]
    | false => simp [KleeArray.rename, hsym]
  · have hne' := Expr.rename_ne_read f hne
    rw [Expr.visitOrder_kids hne', Expr.visitOrder_kids hne, Expr.kids_rename, List.flatMap_map,
      List.map_flatMap]
    exact List.flatMap_congr fun k hk => ih k hk ((Expr.roots_kids hne _).mp hf k hk)
  · simp [UpdateList.rename, UpdateList.visitOrder]
  · obtain ⟨hfi, hfv, hfn⟩ := ((hereditary_roots _).node i v next).mp hf
    simp only [UpdateList.rename, UpdateList.visitOrder, hi hfi, hv hfv, hn hfn, List.map_append]

end TaseVerifier
