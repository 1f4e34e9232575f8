import TaseVerifier.Expr.Kids

/-! The base class of the visitors, over what a visitor does at a node before and after its
children. A recursive visitor visits a node again once it has been rebuilt. Where every change
keeps the value, so does the visit; where every change is to a constant, the weight bounds the
recursion. The table of visited nodes holds the visitor's own results and is left out. -/

namespace TaseVerifier

/-- `ExprVisitor::Action`. -/
inductive Action where
  | skipChildren
  | doChildren
  | changeTo (e : Expr)

/-- A visitor: `visitExpr` together with the visit of the node's kind, and `visitExprPost`. -/
structure ExprVisitor where
  recursive : Bool := false
  visitExpr : Expr → Action := fun _ => .doChildren
  visitExprPost : Expr → Action := fun _ => .skipChildren

namespace ExprVisitor

variable (v : ExprVisitor)

/-- What becomes of a node after its children. -/
def post (e : Expr) : Expr :=
  if e.isConstant then e
  else match v.visitExprPost e with
    | .changeTo e' => e'
    | _ => e

/-- The node itself if no kid changed, and otherwise the node rebuilt over the kids. -/
def rebuilt (visit : Expr → Except Abort Expr) (e : Expr) (kids : List Expr) : Except Abort Expr :=
  if kids = e.kids then pure e
  else do
    let e' ← e.rebuild kids
    if v.recursive then visit e' else pure e'

def visitActual (visit : Expr → Except Abort Expr) (e : Expr) : Except Abort Expr :=
  if e.isConstant then pure e
  else match v.visitExpr e with
    | .skipChildren => pure e
    | .changeTo e' => pure e'
    | .doChildren => do
      let kids ← e.kids.mapM visit
      let e' ← v.rebuilt visit e kids
      pure (v.post e')

/-- `visit`, with `n` bounding the depth of its recursion. -/
def visitWithin : ℕ → Expr → Except Abort Expr
  | 0, _ => throw .diverged
  | n + 1, e => v.visitActual (visitWithin n) e

def visit (e : Expr) : Except Abort Expr := v.visitWithin (e.weight + 1) e

end ExprVisitor

/-! ### Nodes over other kids -/

namespace Expr

variable {e e₁ : Expr} {ks : List Expr}

theorem rebuild_agrees {H : Assignment → Prop} (ht : e.wellTyped = true)
    (h : List.Forall₂ (AgreesOn H) e.kids ks) (he : e.rebuild ks = .ok e₁) : AgreesOn H e e₁ := by
  cases e with
  | constant c =>
    cases he
    exact .refl ht
  | notOptimized s =>
    obtain - | ⟨hs, - | _⟩ := h
    cases he
    exact ⟨hs.wellTyped, hs.getWidth, hs.eval⟩
  | read u i =>
    obtain - | ⟨hi, - | _⟩ := h
    cases he
    exact .read ht hi
  | select c t f =>
    obtain - | ⟨hc, - | ⟨ht', - | ⟨hf, - | _⟩⟩⟩ := h
    cases he
    exact .select ht hc ht' hf
  | concat l r =>
    obtain - | ⟨hl, - | ⟨hr, - | _⟩⟩ := h
    cases he
    exact .concat hl hr
  | extract e off w =>
    obtain - | ⟨hk, - | _⟩ := h
    cases he
    exact .extract ht hk
  | not e =>
    obtain - | ⟨hk, - | _⟩ := h
    cases he
    exact .not hk
  | cast k e w =>
    obtain - | ⟨hk, - | _⟩ := h
    cases he
    exact .cast ht hk
  | binary k l r =>
    obtain - | ⟨hl, - | ⟨hr, - | _⟩⟩ := h
    exact .binary ht hl hr he

/-- The kids of a node without zero divisors have none, and neither has the node over kids
without, which is always built. -/
theorem rebuild_defined {σ : Assignment} (hd : e.defined σ = true)
    (h : List.Forall₂ (fun k k' => k'.eval σ = k.eval σ ∧ k'.defined σ = true) e.kids ks) :
    ∃ e', e.rebuild ks = .ok e' ∧ e'.defined σ = true := by
  have H := hereditary_defined σ
  cases e with
  | constant c => exact ⟨_, by cases ks <;> rfl, hd⟩
  | notOptimized s =>
    obtain - | ⟨hs, - | _⟩ := h
    exact ⟨_, rfl, hs.2⟩
  | read u i =>
    obtain - | ⟨hi, - | _⟩ := h
    exact ⟨_, rfl, H.read_create ((H.read u i).mp hd).1 hi.2⟩
  | select c t f =>
    obtain - | ⟨hc, - | ⟨ht, - | ⟨hf, - | _⟩⟩⟩ := h
    exact ⟨_, rfl, H.select_create hc.2 ht.2 hf.2⟩
  | concat l r =>
    obtain - | ⟨hl, - | ⟨hr, - | _⟩⟩ := h
    exact ⟨_, rfl, H.concat_create hl.2 hr.2⟩
  | extract e off w =>
    obtain - | ⟨hk, - | _⟩ := h
    exact ⟨_, rfl, H.extract_create off w hk.2⟩
  | not e =>
    obtain - | ⟨hk, - | _⟩ := h
    exact ⟨_, rfl, H.not_create hk.2⟩
  | cast k e w =>
    obtain - | ⟨hk, - | _⟩ := h
    exact ⟨_, rfl, H.cast_create w hk.2⟩
  | binary k l r =>
    obtain - | ⟨hl, - | ⟨hr, - | _⟩⟩ := h
    simp only [Expr.defined, Bool.and_eq_true] at hd
    -- the divisor keeps its value, so it is still not zero
    refine BinaryExpr.create_defined ?_
    simp only [Expr.defined, hl.2, hr.2, hr.1, Bool.true_and]
    exact hd.2

theorem defined_kids {σ : Assignment} (hd : e.defined σ = true) :
    ∀ k ∈ e.kids, k.defined σ = true := by
  cases e <;> simp_all [kids, Expr.defined]

/-- A node over kids of which some weigh less, and the others are the same, weighs less. -/
theorem rebuild_weight (hne : ks ≠ e.kids)
    (h : List.Forall₂ (fun k k' => k' = k ∨ k'.weight < k.weight) e.kids ks)
    (he : e.rebuild ks = .ok e₁) : e₁.weight < e.weight := by
  cases e with
  | constant c =>
    obtain - | _ := h
    exact absurd rfl hne
  | notOptimized s =>
    obtain - | ⟨hk, - | _⟩ := h
    cases he
    have := hk.resolve_left (by rintro rfl; exact hne rfl)
    simp only [NotOptimizedExpr.create, weight]
    omega
  | read u i =>
    obtain - | ⟨hk, - | _⟩ := h
    rename_i i'
    cases he
    have := hk.resolve_left (by rintro rfl; exact hne rfl)
    have := ReadExpr.weight_create u i'
    simp only [weight]
    omega
  | select c t f =>
    obtain - | ⟨hc, - | ⟨ht, - | ⟨hf, - | _⟩⟩⟩ := h
    rename_i c' t' f'
    cases he
    have := SelectExpr.weight_create c' t' f'
    simp only [weight]
    rcases hc with rfl | hc <;> rcases ht with rfl | ht <;> rcases hf with rfl | hf <;>
      first | omega | exact absurd rfl hne
  | concat l r =>
    obtain - | ⟨hl, - | ⟨hr, - | _⟩⟩ := h
    rename_i l' r'
    cases he
    have := ConcatExpr.weight_create l' r'
    simp only [weight]
    rcases hl with rfl | hl <;> rcases hr with rfl | hr <;> first | omega | exact absurd rfl hne
  | extract e off w =>
    obtain - | ⟨hk, - | _⟩ := h
    rename_i e'
    cases he
    have := hk.resolve_left (by rintro rfl; exact hne rfl)
    have := ExtractExpr.weight_create e' off w
    simp only [weight]
    omega
  | not e =>
    obtain - | ⟨hk, - | _⟩ := h
    rename_i e'
    cases he
    have := hk.resolve_left (by rintro rfl; exact hne rfl)
    have := NotExpr.weight_create e'
    simp only [weight]
    omega
  | cast k e w =>
    obtain - | ⟨hk, - | _⟩ := h
    rename_i e'
    cases he
    have := hk.resolve_left (by rintro rfl; exact hne rfl)
    have := CastExpr.weight_create k e' w
    simp only [weight]
    omega
  | binary k l r =>
    obtain - | ⟨hl, - | ⟨hr, - | _⟩⟩ := h
    have := BinaryExpr.weight_create he
    simp only [weight]
    rcases hl with rfl | hl <;> rcases hr with rfl | hr <;> first | omega | exact absurd rfl hne

end Expr

theorem forall₂_of_mapM {ε α β : Type} {g : α → Except ε β} {R : α → β → Prop} {xs : List α}
    {ys : List β} (h : xs.mapM g = .ok ys) (hR : ∀ x ∈ xs, ∀ y, g x = .ok y → R x y) :
    List.Forall₂ R xs ys := by
  have hall := (List.forall₂_and_left xs ys).mpr ⟨fun x hx => hx, mapM_eq_ok.mp h⟩
  exact hall.imp fun x y hxy => hR x hxy.1 y hxy.2

theorem bind_eq_error {ε α β : Type} {x : Except ε α} {f : α → Except ε β} {b : ε} :
    x >>= f = .error b ↔ x = .error b ∨ ∃ a, x = .ok a ∧ f a = .error b := by
  cases x with
  | error e => exact ⟨fun h => .inl (by cases h; rfl), by rintro (h | ⟨a, h, -⟩) <;> cases h; rfl⟩
  | ok a =>
    refine ⟨fun h => .inr ⟨a, rfl, h⟩, ?_⟩
    rintro (h | ⟨a', h, h'⟩) <;> cases h
    exact h'

theorem exists_of_mapM_error {ε α β : Type} {g : α → Except ε β} {a : ε} :
    ∀ {xs : List α}, xs.mapM g = .error a → ∃ x ∈ xs, g x = .error a
  | [], h => by
    rw [List.mapM_nil] at h
    cases h
  | x :: xs, h => by
    rw [List.mapM_cons] at h
    rcases bind_eq_error.mp h with hx | ⟨y, -, h⟩
    · exact ⟨x, List.mem_cons_self, hx⟩
    · rcases bind_eq_error.mp h with hxs | ⟨ys, -, h⟩
      · obtain ⟨x', hmem, hx'⟩ := exists_of_mapM_error hxs
        exact ⟨x', List.mem_cons_of_mem x hmem, hx'⟩
      · cases h

namespace ExprVisitor

variable {v : ExprVisitor} {H : Assignment → Prop}

open ExprReplaceVisitor (bind_eq_ok OnlyDivides)

/-- What the visitor changes a node to agrees with the node. -/
structure Sound (v : ExprVisitor) (H : Assignment → Prop) : Prop where
  visitExpr : ∀ e e', e.wellTyped = true → v.visitExpr e = .changeTo e' → AgreesOn H e e'
  visitExprPost : ∀ e e', e.isConstant = false → e.wellTyped = true →
    v.visitExprPost e = .changeTo e' → AgreesOn H e e'

theorem Sound.post (hv : v.Sound H) {e : Expr} (he : e.wellTyped = true) :
    AgreesOn H e (v.post e) := by
  unfold ExprVisitor.post
  split_ifs with hc
  · exact .refl he
  · split
    next e' h => exact hv.visitExprPost e e' (by simpa using hc) he h
    next => exact .refl he

/-- The outcomes of a visit of a node that its kind does not change, by its kids. -/
theorem visitActual_cases {visit : Expr → Except Abort Expr} {e e' : Expr}
    (h : v.visitActual visit e = .ok e') :
    e' = e ∨ v.visitExpr e = .changeTo e' ∨
      ∃ kids e₁, e.kids.mapM visit = .ok kids ∧ v.rebuilt visit e kids = .ok e₁ ∧ e' = v.post e₁ := by
  unfold visitActual at h
  split_ifs at h
  · cases h
    exact .inl rfl
  · split at h
    · cases h
      exact .inl rfl
    next e₁ h₁ =>
      cases h
      exact .inr (.inl h₁)
    · obtain ⟨kids, hkids, h⟩ := bind_eq_ok.mp h
      obtain ⟨e₁, h₁, h⟩ := bind_eq_ok.mp h
      cases h
      exact .inr (.inr ⟨kids, e₁, hkids, h₁, rfl⟩)

theorem rebuilt_cases {visit : Expr → Except Abort Expr} {e e' : Expr} {kids : List Expr}
    (h : v.rebuilt visit e kids = .ok e') :
    kids = e.kids ∧ e' = e ∨ kids ≠ e.kids ∧ ∃ e₁, e.rebuild kids = .ok e₁ ∧
      (v.recursive = true ∧ visit e₁ = .ok e' ∨ v.recursive = false ∧ e' = e₁) := by
  unfold rebuilt at h
  split_ifs at h with hsame hrec
  · cases h
    exact .inl ⟨hsame, rfl⟩
  · obtain ⟨e₁, h₁, h⟩ := bind_eq_ok.mp h
    exact .inr ⟨hsame, e₁, h₁, .inl ⟨hrec, h⟩⟩
  · obtain ⟨e₁, h₁, h⟩ := bind_eq_ok.mp h
    cases h
    exact .inr ⟨hsame, e', h₁, .inr ⟨by simpa using hrec, rfl⟩⟩

/-- A visit that returns has kept type, width and value. -/
theorem Sound.visitWithin (hv : v.Sound H) (n : ℕ) {e e' : Expr} (he : e.wellTyped = true)
    (h : v.visitWithin n e = .ok e') : AgreesOn H e e' := by
  induction n generalizing e e' with
  | zero => cases h
  | succ n ih =>
    rcases visitActual_cases h with rfl | hchange | ⟨kids, e₁, hkids, h₁, rfl⟩
    · exact .refl he
    · exact hv.visitExpr e e' he hchange
    · have hk : List.Forall₂ (AgreesOn H) e.kids kids :=
        forall₂_of_mapM hkids fun k hmem k' hk' => ih (Expr.wellTyped_kids he k hmem) hk'
      have hnode : AgreesOn H e e₁ := by
        rcases rebuilt_cases h₁ with ⟨-, rfl⟩ | ⟨-, e₂, h₂, ⟨-, h₁⟩ | ⟨-, rfl⟩⟩
        · exact .refl he
        · have hreb := Expr.rebuild_agrees he hk h₂
          exact hreb.trans (ih hreb.wellTyped h₁)
        · exact Expr.rebuild_agrees he hk h₂
      exact hnode.trans (hv.post hnode.wellTyped)

/-! ### Visits return -/

/-- Where the parts stop only by `a`, so does the visit of the node. -/
theorem visitActual_error {visit : Expr → Except Abort Expr} {e : Expr} {a : Abort}
    (h : v.visitActual visit e = .error a) :
    (∃ k ∈ e.kids, visit k = .error a) ∨ ∃ kids, e.kids.mapM visit = .ok kids ∧ kids ≠ e.kids ∧
      (e.rebuild kids = .error a ∨
        ∃ e₁, v.recursive = true ∧ e.rebuild kids = .ok e₁ ∧ visit e₁ = .error a) := by
  unfold visitActual at h
  split_ifs at h
  · cases h
  · split at h
    · cases h
    · cases h
    · rcases bind_eq_error.mp h with hkids | ⟨kids, hkids, h⟩
      · exact .inl (exists_of_mapM_error hkids)
      · rcases bind_eq_error.mp h with hreb | ⟨e₁, -, h⟩
        · refine .inr ⟨kids, hkids, ?_⟩
          unfold rebuilt at hreb
          split_ifs at hreb with hsame hrec
          · cases hreb
          · rcases bind_eq_error.mp hreb with hr | ⟨e₁, hr, hv⟩
            · exact ⟨hsame, .inl hr⟩
            · exact ⟨hsame, .inr ⟨e₁, hrec, hr, hv⟩⟩
          · rcases bind_eq_error.mp hreb with hr | ⟨e₁, -, hv⟩
            · exact ⟨hsame, .inl hr⟩
            · cases hv
        · cases h

/-- Without a second visit of rebuilt nodes the recursion follows the kids. -/
theorem onlyDivides_of_not_recursive (hrec : v.recursive = false) (n : ℕ) {e : Expr}
    (hn : e.weight < n) : OnlyDivides (v.visitWithin n e) := by
  induction n generalizing e with
  | zero => omega
  | succ n ih =>
    intro a h
    rcases visitActual_error h with ⟨k, hk, h⟩ | ⟨kids, -, -, h | ⟨e₁, hrec', -⟩⟩
    · have := Expr.weight_kids hk
      exact ih (by omega) a h
    · exact Expr.onlyDivides_rebuild e kids a h
    · rw [hrec] at hrec'
      cases hrec'

/-- The visitor changes nothing before the children, and to constants after them. -/
structure ToConstants (v : ExprVisitor) : Prop where
  visitExpr : ∀ e e', v.visitExpr e ≠ .changeTo e'
  visitExprPost : ∀ e e', v.visitExprPost e = .changeTo e' → e'.isConstant = true

theorem ToConstants.post (hv : v.ToConstants) (e : Expr) :
    v.post e = e ∨ (v.post e).weight < e.weight := by
  unfold ExprVisitor.post
  split_ifs with hc
  · exact .inl rfl
  · split
    next e' h =>
      obtain ⟨c, rfl⟩ := Expr.isConstant_iff.mp (hv.visitExprPost e e' h)
      exact .inr (Expr.weight_pos (by simpa using hc))
    next => exact .inl rfl

/-- A visitor that changes nodes to constants makes them lighter, so that it can visit again
what it has rebuilt. -/
theorem ToConstants.visitWithin (hv : v.ToConstants) (n : ℕ) {e : Expr} (hn : e.weight < n) :
    OnlyDivides (v.visitWithin n e) ∧
      ∀ e', v.visitWithin n e = .ok e' → e' = e ∨ e'.weight < e.weight := by
  induction n generalizing e with
  | zero => omega
  | succ n ih =>
    have hkid {k : Expr} (hk : k ∈ e.kids) : k.weight < n := by
      have := Expr.weight_kids hk
      omega
    have hreb {kids : List Expr} {e₁ : Expr} (hkids : e.kids.mapM (v.visitWithin n) = .ok kids)
        (hne : kids ≠ e.kids) (h₁ : e.rebuild kids = .ok e₁) : e₁.weight < e.weight :=
      Expr.rebuild_weight hne (forall₂_of_mapM hkids fun k hk k' hk' => (ih (hkid hk)).2 k' hk') h₁
    refine ⟨fun a h => ?_, fun e' h => ?_⟩
    · rcases visitActual_error h with ⟨k, hk, h⟩ | ⟨kids, hkids, hne, h | ⟨e₁, -, h₁, h⟩⟩
      · exact (ih (hkid hk)).1 a h
      · exact Expr.onlyDivides_rebuild e kids a h
      · have := hreb hkids hne h₁
        exact (ih (by omega)).1 a h
    · rcases visitActual_cases h with rfl | hchange | ⟨kids, e₁, hkids, h₁, rfl⟩
      · exact .inl rfl
      · exact absurd hchange (hv.visitExpr e e')
      · have hnode : e₁ = e ∨ e₁.weight < e.weight := by
          rcases rebuilt_cases h₁ with ⟨-, rfl⟩ | ⟨hne, e₂, h₂, ⟨-, h₁⟩ | ⟨-, rfl⟩⟩
          · exact .inl rfl
          · have hlt := hreb hkids hne h₂
            rcases (ih (by omega)).2 e₁ h₁ with rfl | h
            · exact .inr hlt
            · exact .inr (h.trans hlt)
          · exact .inr (hreb hkids hne h₂)
        rcases hv.post e₁ with hpost | hpost
        · rw [hpost]
          exact hnode
        · rcases hnode with rfl | hnode
          · exact .inr hpost
          · exact .inr (hpost.trans hnode)

/-- The visitor introduces no zero divisor. -/
structure KeepsDefined (v : ExprVisitor) (σ : Assignment) : Prop where
  visitExpr : ∀ e e', e.defined σ = true → v.visitExpr e = .changeTo e' → e'.defined σ = true
  visitExprPost : ∀ e e', e.defined σ = true → v.visitExprPost e = .changeTo e' →
    e'.defined σ = true

theorem KeepsDefined.post {σ : Assignment} (hd : v.KeepsDefined σ) {e : Expr}
    (he : e.defined σ = true) : (v.post e).defined σ = true := by
  unfold ExprVisitor.post
  split_ifs
  · exact he
  · split
    next e' h => exact hd.visitExprPost e e' he h
    next => exact he

/-- An expression without zero divisors under an assignment that justifies the changes is
visited without a division by zero. -/
theorem Sound.visitWithin_defined (hv : v.Sound H) {σ : Assignment} (hσ : H σ)
    (hd : v.KeepsDefined σ) (n : ℕ) {e : Expr} (ht : e.wellTyped = true) (he : e.defined σ = true) :
    (∀ e', v.visitWithin n e = .ok e' → e'.defined σ = true) ∧
      v.visitWithin n e ≠ .error .divideByZero := by
  induction n generalizing e with
  | zero => exact ⟨nofun, nofun⟩
  | succ n ih =>
    have hkid {k : Expr} (hk : k ∈ e.kids) := ih (Expr.wellTyped_kids ht k hk)
      (Expr.defined_kids he k hk)
    have hreb {kids : List Expr} (hkids : e.kids.mapM (v.visitWithin n) = .ok kids) :
        ∃ e₁, e.rebuild kids = .ok e₁ ∧ e₁.wellTyped = true ∧ e₁.defined σ = true := by
      have hagree : List.Forall₂ (AgreesOn H) e.kids kids := forall₂_of_mapM hkids
        fun k hk k' hk' => hv.visitWithin n (Expr.wellTyped_kids ht k hk) hk'
      obtain ⟨e₁, h₁, hd₁⟩ := Expr.rebuild_defined he (forall₂_of_mapM hkids fun k hk k' hk' =>
        ⟨(hv.visitWithin n (Expr.wellTyped_kids ht k hk) hk').eval σ hσ, (hkid hk).1 k' hk'⟩)
      exact ⟨e₁, h₁, (Expr.rebuild_agrees ht hagree h₁).wellTyped, hd₁⟩
    refine ⟨fun e' h => ?_, fun h => ?_⟩
    · rcases visitActual_cases h with rfl | hchange | ⟨kids, e₁, hkids, h₁, rfl⟩
      · exact he
      · exact hd.visitExpr e e' he hchange
      · obtain ⟨e₂, h₂, ht₂, hd₂⟩ := hreb hkids
        refine hd.post ?_
        rcases rebuilt_cases h₁ with ⟨-, rfl⟩ | ⟨-, e₃, h₃, h⟩
        · exact he
        · obtain rfl := Except.ok.inj (h₂.symm.trans h₃)
          rcases h with ⟨-, h⟩ | ⟨-, rfl⟩
          · exact (ih ht₂ hd₂).1 e₁ h
          · exact hd₂
    · rcases visitActual_error h with ⟨k, hk, h⟩ | ⟨kids, hkids, -, h⟩
      · exact (hkid hk).2 h
      · obtain ⟨e₂, h₂, ht₂, hd₂⟩ := hreb hkids
        rcases h with h | ⟨e₃, -, h₃, h⟩
        · rw [h₂] at h
          cases h
        · obtain rfl := Except.ok.inj (h₂.symm.trans h₃)
          exact (ih ht₂ hd₂).2 h

/-- A visitor whose recursion the weight bounds. -/
def Bounded (v : ExprVisitor) : Prop := v.recursive = false ∨ v.ToConstants

theorem Bounded.visit (hv : v.Bounded) (e : Expr) : OnlyDivides (v.visit e) := by
  rcases hv with hrec | hconst
  · exact onlyDivides_of_not_recursive hrec _ (by omega)
  · exact (hconst.visitWithin _ (by omega)).1

/-- A sound visitor stops only at a zero divisor, and returns an expression with the same value.
It does return where the expression has a value under an assignment of interest. -/
theorem Sound.visit (hv : v.Sound H) (hb : v.Bounded) {e : Expr} (ht : e.wellTyped = true) :
    OnlyDivides (v.visit e) ∧ (∀ e', v.visit e = .ok e' → AgreesOn H e e') ∧
      ∀ σ, H σ → v.KeepsDefined σ → e.defined σ = true →
        ∃ e', v.visit e = .ok e' ∧ e'.defined σ = true := by
  refine ⟨hb.visit e, fun e' h => hv.visitWithin _ ht h, fun σ hσ hd he => ?_⟩
  obtain ⟨hok, hne⟩ := hv.visitWithin_defined hσ hd (e.weight + 1) ht he
  cases h : v.visit e with
  | ok e' => exact ⟨e', rfl, hok e' h⟩
  | error a =>
    obtain rfl := hb.visit e a h
    exact absurd h hne

end ExprVisitor

end TaseVerifier
