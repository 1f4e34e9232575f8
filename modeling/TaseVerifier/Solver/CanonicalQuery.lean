import TaseVerifier.Solver.CanonicalForm

/-! The canonical form of a query. A visit comes to the form of the expression over the
places handed out by its end, whatever its table holds. A query and a renaming of it meet
their arrays in the same order, and so have one form. -/

namespace TaseVerifier

open Library

namespace CanonicalVisitor

variable {cache : ArrayCache} {st st' : State} {e e' : Expr}

/-! ### Visits -/

def State.numbering (st : State) : Numbering := ⟨st.arrayIndexMap, st.sizeLRUMap⟩

/-- The table holds forms, over arrays that have their places. -/
def State.Formed (cache : ArrayCache) (st : State) : Prop :=
  ∀ p ∈ st.visited, cache.Clean p.1 → (∀ a ∈ p.1.visitOrder, ∃ i, st.arrayIndexMap a = some i) ∧
    p.1.form (st.numbering.toCanonical cache) = .ok p.2

theorem form_of_le {n m : Numbering} (h : n.Le m)
    (ha : ∀ a ∈ e.visitOrder, ∃ i, n.index a = some i) :
    e.form (m.toCanonical cache) = e.form (n.toCanonical cache) := by
  refine Expr.form_congr e fun a hmem => ?_
  obtain ⟨i, hi⟩ := ha a (Expr.mem_visitOrder.mpr hmem)
  exact Numbering.toCanonical_of_le h hi

theorem State.Formed.mono (h : st.Formed cache) (hle : st.numbering.Le st'.numbering)
    (hv : st'.visited = st.visited) : st'.Formed cache := by
  intro p hp hc
  rw [hv] at hp
  obtain ⟨ha, hform⟩ := h p hp hc
  refine ⟨fun a hmem => ?_, (form_of_le hle ha).trans hform⟩
  obtain ⟨i, hi⟩ := ha a hmem
  exact ⟨i, hle a i hi⟩

theorem Quiet.numbering (h : Quiet st st') : st'.numbering = st.numbering := by
  simp only [State.numbering, h.arrayIndexMap, h.sizeLRUMap]

theorem Quiet.formed (h : Quiet st st') (hi : st.Inv cache) (hf : st.Formed cache) :
    st'.Formed cache := by
  intro p hp hc
  rw [h.numbering, h.arrayIndexMap]
  rcases h.visited p hp with hp | ⟨heq, hs, ho⟩
  · exact hf p hp hc
  · -- over the pool and clean, so without symbolic arrays
    have hnil : p.1.symbolicRoots = [] :=
      List.eq_nil_iff_forall_not_mem.mpr fun a ha => hc a ha (hi.isCanonical (ho a ha))
    refine ⟨fun a ha => ?_, ?_⟩
    · rw [Expr.mem_visitOrder, hnil] at ha
      cases ha
    · rw [heq]
      exact (form_of_settled _).1 _ hs hnil

theorem State.Formed.remember (h : st.Formed cache)
    (ha : ∀ a ∈ e.visitOrder, ∃ i, st.arrayIndexMap a = some i)
    (hform : e.form (st.numbering.toCanonical cache) = .ok e') :
    (st.remember e e').Formed cache := by
  intro p hp hc
  rcases List.mem_cons.mp hp with rfl | hp
  · exact ⟨ha, hform⟩
  · exact h p hp hc

theorem numbering_assign {root : KleeArray} (h : st.arrayIndexMap root = none) :
    (st.assign root).numbering = st.numbering.add root := by
  simp only [State.numbering, Numbering.add, State.assign, h]

/-- A symbolic root is met. -/
theorem canonicalRoot_forms {E : Abort → Prop} {root : KleeArray} (h : st.Inv cache) :
    Ensures E (canonicalRoot cache root) st fun array st' =>
      array = st'.numbering.toCanonical cache root ∧ st'.numbering = st.numbering.add root ∧
        st'.visited = st.visited := by
  have hpool : ∀ {st' : State} {i : ℕ}, st'.arrayIndexMap root = some i →
      st'.numbering.toCanonical cache root = cache.canonicalArray root.size i := by
    intro st' i hi
    simp only [State.numbering, Numbering.toCanonical, hi]
  have hindex : ∀ st' : State, (st'.assign root).arrayIndexMap root = some (st'.sizeLRUMap root.size) :=
    fun st' => Function.update_self ..
  unfold canonicalRoot
  refine Ensures.get_bind ?_
  split
  next i hi =>
    have hlt : i < (st.canonicalArrayMap root.size).length :=
      lt_of_lt_of_le (h.index_lt root i hi) (h.lru root.size)
    refine Ensures.pure ⟨?_, (Numbering.add_of_some hi).symm, rfl⟩
    rw [hpool hi, List.getElem?_eq_getElem hlt]
    exact h.pool _ _ _ (List.getElem?_eq_getElem hlt)
  next hnew =>
    dsimp only
    split
    next array ha =>
      refine ⟨?_, numbering_assign hnew, rfl⟩
      rw [hpool (hindex st)]
      exact h.pool _ _ _ ha
    next hnone =>
      have hlast : st.sizeLRUMap root.size = (st.canonicalArrayMap root.size).length :=
        le_antisymm (h.lru root.size) (List.getElem?_eq_none_iff.mp hnone)
      set array := cache.createArray (canonicalName root.size
        ((st.canonicalArrayMap root.size).length + 1)) root.size with harray
      have hnew' : (st.insert array).arrayIndexMap root = none := hnew
      refine ⟨?_, numbering_assign hnew', rfl⟩
      rw [hpool (hindex (st.insert array))]
      change _ = cache.canonicalArray root.size (st.sizeLRUMap root.size)
      rw [hlast, harray]
      rfl

/-- The places of a read's own root. -/
def rootOrder (u : UpdateList) : List KleeArray :=
  if u.array.isSymbolicArray then [u.array] else []

theorem newRoot_forms {E : Abort → Prop} {u : UpdateList} (h : st.Inv cache) (hf : st.Formed cache) :
    Ensures E (newRoot cache u.array) st fun array st' =>
      array = u.array.rename (st'.numbering.toCanonical cache) ∧
        st'.numbering = st.numbering.addAll (rootOrder u) ∧ st'.Formed cache := by
  unfold newRoot rootOrder
  cases hsym : u.array.isSymbolicArray with
  | true =>
    rw [if_neg (by simp [KleeArray.isConstantArray, hsym])]
    refine (canonicalRoot_forms h).mono ?_
    rintro array st' ⟨harray, hnum, hv⟩
    refine ⟨by simpa [KleeArray.rename, hsym] using harray, hnum, hf.mono ?_ hv⟩
    rw [hnum]
    exact Numbering.le_add _ _
  | false =>
    rw [if_pos (by simp [KleeArray.isConstantArray, hsym])]
    exact Ensures.pure ⟨by simp [KleeArray.rename, hsym], rfl, hf⟩

/-- `visit` returns the form over the places that are handed out by its end, to the given
depth, and stops where there is none. -/
def Forms (cache : ArrayCache) (depth : ℕ) (visit : Expr → VisitM Expr) : Prop :=
  ∀ e st n, st.Inv cache → st.Formed cache → e.wellTyped = true → cache.Clean e →
    e.weight + 1 < depth → (st.numbering.addAll e.visitOrder).Le n →
    Ensures (fun err => e.form (n.toCanonical cache) = .error err) (visit e) st fun e' st' =>
      st'.Formed cache ∧ st'.numbering = st.numbering.addAll e.visitOrder ∧
        e.form (n.toCanonical cache) = .ok e'

section Forms

variable {depth : ℕ} {visit : Expr → VisitM Expr} {n : Numbering}

theorem mapM_forms (hr : Renames cache depth visit) (hv : Forms cache depth visit) :
    ∀ (ks : List Expr) (st : State), st.Inv cache → st.Formed cache →
      (∀ k ∈ ks, k.wellTyped = true ∧ cache.Clean k ∧ k.weight + 1 < depth) →
      (st.numbering.addAll (ks.flatMap Expr.visitOrder)).Le n →
      Ensures (fun err => ks.mapM (Expr.form (n.toCanonical cache)) = .error err) (ks.mapM visit) st
        fun ks' st' => st'.Formed cache ∧
          st'.numbering = st.numbering.addAll (ks.flatMap Expr.visitOrder) ∧
          ks.mapM (Expr.form (n.toCanonical cache)) = .ok ks'
  | [], st, _, hf, _, _ => Ensures.pure ⟨hf, rfl, rfl⟩
  | k :: ks, st, h, hf, hks, hle => by
    obtain ⟨⟨ht, hc, hw⟩, hks⟩ := List.forall_mem_cons.mp hks
    rw [List.flatMap_cons, Numbering.addAll_append] at hle ⊢
    rw [List.mapM_cons, List.mapM_cons]
    have hk := (hr k st h ht hc hw).and
      (hv k st n h hf ht hc hw ((Numbering.le_addAll _ _).trans hle))
    refine (hk.weaken fun err herr => by rw [herr]; rfl).bind ?_
    rintro k' st₁ ⟨⟨h₁, -, -⟩, hf₁, hn₁, hk'⟩
    have hrest := mapM_forms hr hv ks st₁ h₁ hf₁ hks (by rwa [hn₁])
    refine (hrest.weaken fun err herr => by rw [hk', herr]; rfl).bind ?_
    rintro ks' st₂ ⟨hf₂, hn₂, hks'⟩
    exact Ensures.pure ⟨hf₂, by rw [hn₂, hn₁], by rw [hk', hks']; rfl⟩

theorem visitUpdates_forms (hr : Renames cache depth visit) (hv : Forms cache depth visit)
    {array : KleeArray} : ∀ (u : UpdateList) (st : State), st.Inv cache → st.Formed cache →
      StandsFor cache st u.array array → array = u.array.rename (n.toCanonical cache) →
      u.wellTyped = true → (∀ a ∈ u.symbolicRoots, ¬ cache.IsCanonical a) → u.weight + 1 < depth →
      (st.numbering.addAll u.visitOrder).Le n →
      Ensures (fun err => u.form (n.toCanonical cache) = .error err) (visitUpdates visit array u) st
        fun u' st' => st'.Formed cache ∧ st'.numbering = st.numbering.addAll u.visitOrder ∧
          u.form (n.toCanonical cache) = .ok u'
  | .root a, st, _, hf, _, harray, _, _, _, _ => by
    refine Ensures.pure ⟨hf, rfl, ?_⟩
    rw [harray]
    simp only [UpdateList.form, UpdateList.array]
    rfl
  | .node i v next, st, h, hf, hroot, harray, ht, hc, hw, hle => by
    simp only [UpdateList.wellTyped, Bool.and_eq_true, beq_iff_eq] at ht
    obtain ⟨hci, hcv, hcn⟩ := (cache.hereditary_clean.node i v next).mp hc
    simp only [UpdateList.weight] at hw
    simp only [UpdateList.visitOrder, Numbering.addAll_append] at hle
    simp only [UpdateList.form, UpdateList.visitOrder, Numbering.addAll_append]
    have hle₂ := (Numbering.le_addAll _ _).trans hle
    have hnext := (visitUpdates_renames hr next st h hroot ht.1.1.2 hcn (by omega)).and
      (visitUpdates_forms hr hv next st h hf hroot harray ht.1.1.2 hcn (by omega)
        ((Numbering.le_addAll _ _).trans hle₂))
    refine (hnext.weaken fun err herr => by rw [herr]; rfl).bind ?_
    rintro u₁ st₁ ⟨⟨h₁, -, -⟩, hf₁, hn₁, hu₁⟩
    have hi := (hr i st₁ h₁ ht.1.1.1.1 hci (by omega)).and
      (hv i st₁ n h₁ hf₁ ht.1.1.1.1 hci (by omega) (by rwa [hn₁]))
    refine (hi.weaken fun err herr => by rw [hu₁, herr]; rfl).bind ?_
    rintro i' st₂ ⟨⟨h₂, -, -⟩, hf₂, hn₂, hi'⟩
    have hval := hv v st₂ n h₂ hf₂ ht.1.1.1.2 hcv (by omega) (by rwa [hn₂, hn₁])
    refine (hval.weaken fun err herr => by rw [hu₁, hi', herr]; rfl).bind ?_
    rintro v' st₃ ⟨hf₃, hn₃, hv'⟩
    exact Ensures.pure ⟨hf₃, by rw [hn₃, hn₂, hn₁], by rw [hu₁, hi', hv']; rfl⟩

theorem changeRead_forms (hr : Renames cache depth visit) (hv : Forms cache depth visit)
    {u : UpdateList} {i : Expr} (h : st.Inv cache) (hf : st.Formed cache)
    (ht : (Expr.read u i).wellTyped = true) (hc : cache.Clean (.read u i))
    (hw : (Expr.read u i).weight < depth)
    (hle : (st.numbering.addAll (Expr.read u i).visitOrder).Le n) :
    Ensures (fun err => (Expr.read u i).form (n.toCanonical cache) = .error err)
      (changeRead cache visit u i) st fun e' st' => st'.Formed cache ∧
        st'.numbering = st.numbering.addAll (Expr.read u i).visitOrder ∧
        (Expr.read u i).form (n.toCanonical cache) = .ok e' := by
  simp only [Expr.wellTyped, Bool.and_eq_true, beq_iff_eq] at ht
  obtain ⟨hcu, hci⟩ := (cache.hereditary_clean.read u i).mp hc
  simp only [Expr.weight] at hw
  have horder : (Expr.read u i).visitOrder = rootOrder u ++ u.visitOrder ++ i.visitOrder := by
    simp only [Expr.visitOrder, rootOrder]
  have hroot : u.array.isSymbolicArray = true → ¬ cache.IsCanonical u.array :=
    fun hsym => hcu _ (UpdateList.array_mem_symbolicRoots hsym)
  rw [horder, Numbering.addAll_append, Numbering.addAll_append] at hle ⊢
  simp only [Expr.form]
  have hle₂ := (Numbering.le_addAll _ _).trans hle
  unfold changeRead
  refine ((newRoot_spec (E := fun _ => False) h (u.wellTyped_array ht.1.1) hroot).and
    (newRoot_forms h hf)).bind ?_
  rintro array st₁ ⟨⟨h₁, -, hstands⟩, harray, hn₁, hf₁⟩
  have harray' : array = u.array.rename (n.toCanonical cache) := by
    rw [harray]
    unfold KleeArray.rename
    split_ifs with hsym
    · have hmem : u.array ∈ rootOrder u := by simp [rootOrder, hsym]
      obtain ⟨j, hj⟩ := Numbering.index_addAll (n := st.numbering) hmem
      rw [hn₁]
      exact (Numbering.toCanonical_of_le ((Numbering.le_addAll _ _).trans hle₂) hj).symm
    · rfl
  have hu := (visitUpdates_renames hr u st₁ h₁ hstands ht.1.1 hcu (by omega)).and
    (visitUpdates_forms hr hv u st₁ h₁ hf₁ hstands harray' ht.1.1 hcu (by omega) (by rwa [hn₁]))
  refine (hu.weaken fun err herr => by rw [herr]; rfl).bind ?_
  rintro u' st₂ ⟨⟨h₂, -, -⟩, hf₂, hn₂, hu'⟩
  have hi := hv i st₂ n h₂ hf₂ ht.1.2 hci (by omega) (by rwa [hn₂, hn₁])
  refine (hi.weaken fun err herr => by rw [hu', herr]; rfl).bind ?_
  rintro i' st₃ ⟨hf₃, hn₃, hi'⟩
  exact Ensures.pure ⟨hf₃, by rw [hn₃, hn₂, hn₁], by rw [hu', hi']; rfl⟩

theorem revisit_forms (hk : Keeps cache depth visit) (h : st.Inv cache) (hf : st.Formed cache)
    (hw : e.weight < depth) (ht : e.wellTyped = true) (hne : ∀ u i, e ≠ .read u i) {ks : List Expr}
    (hrs : List.Forall₂ (Renamed cache st) e.kids ks) :
    Ensures (fun err => e.rebuilt ks = .error err)
      (revisit visit e (ks = e.kids) (e.rebuild ks)) st fun e' st' =>
        st'.Formed cache ∧ st'.numbering = st.numbering ∧ e.rebuilt ks = .ok e' := by
  by_cases hsame : ks = e.kids
  · exact revisit_same (by simpa using hsame) ⟨hf, rfl, if_pos hsame⟩
  · have hreb : e.rebuilt ks = e.rebuild ks := if_neg hsame
    rw [revisit, if_neg (by simpa using hsame), hreb]
    cases hr : e.rebuild ks with
    | error err => exact rfl
    | ok e₁ =>
      have h₁ := renamed_rebuild ht hne hrs hr
      have hkeep := hk e₁ st h h₁.wellTyped h₁.settled h₁.isOver (lt_of_le_of_lt h₁.weight hw)
      refine (hkeep.weaken fun _ => False.elim).mono ?_
      rintro _ st' ⟨rfl, -, hq⟩
      exact ⟨hq.formed h hf, hq.numbering, rfl⟩

theorem visitActual_forms (hk : Keeps cache depth visit) (hr : Renames cache depth visit)
    (hv : Forms cache depth visit) (h : st.Inv cache) (hf : st.Formed cache)
    (ht : e.wellTyped = true) (hc : cache.Clean e) (hw : e.weight < depth)
    (hle : (st.numbering.addAll e.visitOrder).Le n) :
    Ensures (fun err => e.form (n.toCanonical cache) = .error err) (visitActual cache visit e) st
      fun e' st' => st'.Formed cache ∧ st'.numbering = st.numbering.addAll e.visitOrder ∧
        e.form (n.toCanonical cache) = .ok e' := by
  by_cases hread : ∃ u i, e = .read u i
  · obtain ⟨u, i, rfl⟩ := hread
    refine Ensures.get_bind ?_
    rw [if_neg (not_mem_pool_of_clean h hc)]
    exact changeRead_forms hr hv h hf ht hc hw hle
  · have hne : ∀ u i, e ≠ .read u i := fun u i heq => hread ⟨u, i, heq⟩
    have hks : ∀ k ∈ e.kids, k.wellTyped = true ∧ cache.Clean k ∧ k.weight + 1 < depth := by
      intro k hmem
      have := Expr.weight_kids hmem
      exact ⟨Expr.wellTyped_kids ht k hmem, (Expr.roots_kids hne _).mp hc k hmem, by omega⟩
    rw [visitActual_kids hne, Expr.form_kids hne]
    rw [Expr.visitOrder_kids hne] at hle ⊢
    have hkids := (mapM_renames hr e.kids st h hks).and (mapM_forms hr hv e.kids st h hf hks hle)
    refine (hkids.weaken fun err herr => by rw [herr]; rfl).bind ?_
    rintro ks st₁ ⟨⟨h₁, -, hrs⟩, hf₁, hn₁, hks'⟩
    rw [hks']
    refine (revisit_forms hk h₁ hf₁ hw ht hne hrs).mono ?_
    rintro e' st' ⟨hf', hn', he'⟩
    exact ⟨hf', hn'.trans hn₁, he'⟩

theorem lookup_forms (hk : Keeps cache depth visit) (hr : Renames cache depth visit)
    (hv : Forms cache depth visit) :
    Forms cache (depth + 1) fun e => lookup e (visitActual cache visit e) := by
  intro e st n h hf ht hc hw hle
  have hactual := visitActual_forms hk hr hv h hf ht hc (by omega) hle
  refine lookup_spec (fun _ => hactual) (fun e' hmem => ?_) (hactual.mono ?_)
  · obtain ⟨ha, hform⟩ := hf _ hmem hc
    refine ⟨hf, (Numbering.addAll_of_some ha).symm, ?_⟩
    exact (form_of_le ((Numbering.le_addAll _ _).trans hle) ha).trans hform
  · rintro e' st' ⟨hf', hn', he'⟩
    have ha : ∀ a ∈ e.visitOrder, ∃ i, st'.numbering.index a = some i := fun a hmem => by
      rw [hn']
      exact Numbering.index_addAll hmem
    refine ⟨hf'.remember ha ?_, hn', he'⟩
    rw [← form_of_le (by rwa [hn']) ha]
    exact he'

end Forms

theorem visit_forms : ∀ depth, Forms cache depth (visit cache depth)
  | 0 => fun _ _ _ _ _ _ _ hw => absurd hw (Nat.not_lt_zero _)
  | depth + 1 => lookup_forms (visit_keeps depth) (visit_renames depth) (visit_forms depth)

theorem forms_visitQuery (depth : ℕ) : Forms cache depth (visitQuery cache) :=
  fun e st n h hf ht hc _ hle => visit_forms _ e st n h hf ht hc (Nat.lt_succ_self _) hle

end CanonicalVisitor

/-! ### Queries -/

namespace Query

variable (cache : ArrayCache)

def exprs (q : Query) : List Expr := q.expr :: q.constraints

/-- The symbolic arrays as the canonicaliser meets them. -/
def visitOrder (q : Query) : List KleeArray := q.exprs.flatMap Expr.visitOrder

def rename (f : KleeArray → KleeArray) (q : Query) : Query :=
  ⟨q.constraints.map (Expr.rename f), q.expr.rename f⟩

def Normal (q : Query) : Prop := ∀ e ∈ q.exprs, e.Normal

/-- A query whose arrays are not themselves canonical. -/
structure Admissible (q : Query) : Prop where
  wellTyped : ∀ e ∈ q.exprs, e.wellTyped = true
  clean : ∀ e ∈ q.exprs, cache.Clean e

/-- The places of the arrays. -/
def numbering (q : Query) : Numbering := Numbering.empty.addAll q.visitOrder

def toCanonical (q : Query) : KleeArray → KleeArray := q.numbering.toCanonical cache

/-- The forms of the expression and the constraints over one renaming. -/
def formOver (f : KleeArray → KleeArray) (q : Query) : Except Abort Query := do
  let e' ← q.expr.form f
  let cs' ← q.constraints.mapM (Expr.form f)
  pure ⟨cs', e'⟩

/-- The canonical form, or how there is none. -/
def form (q : Query) : Except Abort Query := q.formOver (q.toCanonical cache)

variable {cache} {q : Query}

theorem mem_visitOrder {e : Expr} (he : e ∈ q.exprs) {a : KleeArray} (ha : a ∈ e.symbolicRoots) :
    a ∈ q.visitOrder :=
  List.mem_flatMap.mpr ⟨e, he, Expr.mem_visitOrder.mpr ha⟩

theorem isRenaming_toCanonical (cache : ArrayCache) (q : Query) :
    IsRenaming (q.toCanonical cache) {a | a ∈ q.visitOrder} :=
  (Numbering.proper_empty.addAll q.visitOrder).isRenaming cache fun _ => Numbering.index_addAll

theorem isCanonical_toCanonical {a : KleeArray} (ha : a ∈ q.visitOrder) :
    cache.IsCanonical (q.toCanonical cache a) := by
  obtain ⟨i, hi⟩ := Numbering.index_addAll (n := .empty) ha
  exact ⟨a.size, i, by simp only [toCanonical, numbering, Numbering.toCanonical, hi]⟩

/-- The form of a normal query is the query renamed. -/
theorem form_of_normal (hn : q.Normal) : q.form cache = .ok (q.rename (q.toCanonical cache)) := by
  obtain ⟨hne, hncs⟩ := List.forall_mem_cons.mp hn
  have hren : ∀ e ∈ q.exprs, IsRenaming (q.toCanonical cache) {a | a ∈ e.symbolicRoots} :=
    fun e he => (isRenaming_toCanonical cache q).mono fun a ha => mem_visitOrder he ha
  have he := Expr.form_normal (hren _ List.mem_cons_self) hne
  have hcs : q.constraints.mapM (Expr.form (q.toCanonical cache)) =
      .ok (q.constraints.map (Expr.rename (q.toCanonical cache))) := by
    rw [mapM_eq_ok, List.forall₂_map_right_iff, List.forall₂_same]
    exact fun c hc => Expr.form_normal (hren c (List.mem_cons_of_mem _ hc)) (hncs c hc)
  unfold form formOver
  rw [he, hcs]
  rfl

/-- A renamed query has the form of the query. -/
theorem form_rename {f : KleeArray → KleeArray} (hf : IsRenaming f {a | a ∈ q.visitOrder})
    (hq : q.Admissible cache) (hq' : (q.rename f).Admissible cache) :
    (q.rename f).form cache = q.form cache := by
  have hsym : ∀ e ∈ q.exprs, ∀ a ∈ e.symbolicRoots, (f a).isSymbolicArray = true :=
    fun e he a ha => hf.symbolic a (mem_visitOrder he ha)
  have hexprs : (q.rename f).exprs = q.exprs.map (Expr.rename f) := rfl
  have horder : (q.rename f).visitOrder = q.visitOrder.map f := by
    rw [visitOrder, hexprs, List.flatMap_map, visitOrder, List.map_flatMap]
    exact List.flatMap_congr fun e he => visitOrder_rename.1 e (hsym e he)
  have hsame : ∀ a ∈ q.visitOrder, (q.rename f).toCanonical cache (f a) = q.toCanonical cache a := by
    intro a ha
    have hidx : (q.rename f).numbering.index (f a) = q.numbering.index a := by
      rw [numbering, horder]
      exact Numbering.index_addAll_map hf (fun _ h => h) (fun _ _ => rfl) rfl a ha
    simp only [toCanonical, Numbering.toCanonical, hidx, hf.size a ha]
    obtain ⟨i, hi⟩ := Numbering.index_addAll (n := .empty) ha
    rw [numbering, hi]
  have hmeets : ∀ e ∈ q.exprs, ∀ a ∈ e.symbolicRoots,
      Meets cache.IsCanonical f (q.toCanonical cache) ((q.rename f).toCanonical cache) a := by
    intro e he a ha
    have hmem := mem_visitOrder he ha
    have he' : e.rename f ∈ (q.rename f).exprs := hexprs ▸ List.mem_map_of_mem he
    refine ⟨hq.clean e he a ha, hq'.clean _ he' (f a) ?_, hsym e he a ha,
      (isRenaming_toCanonical cache q).symbolic a hmem, isCanonical_toCanonical hmem, hsame a hmem⟩
    rw [e.symbolicRoots_rename (hsym e he)]
    exact List.mem_map_of_mem ha
  have he := TaseVerifier.form_rename.1 q.expr (hmeets _ List.mem_cons_self)
  have hcs := mapM_map_congr fun c hc =>
    TaseVerifier.form_rename.1 c (hmeets c (List.mem_cons_of_mem _ hc))
  unfold form formOver
  rw [← he, ← hcs]
  rfl

end Query

namespace CanonicalSolver

open CanonicalVisitor

variable {cache : ArrayCache} {solver : CanonicalSolver} {q q' : Query}

/-- The pool holds the canonical arrays of each size in turn. -/
structure Inv (cache : ArrayCache) (solver : CanonicalSolver) : Prop where
  pool : ∀ sz i a, (solver.canonicalArrayMap sz)[i]? = some a → a = cache.canonicalArray sz i
  mem_pool : ∀ a, a ∈ solver.canonicalArraySet ↔ a ∈ solver.canonicalArrayMap a.size

/-- The maps of the call when it returns. -/
structure Ends (cache : ArrayCache) (q q' : Query) (st : State) : Prop where
  inv : st.Inv cache
  numbering : st.numbering = q.numbering
  form : q.form cache = .ok q'
  expr : Renamed cache st q.expr q'.expr
  constraints : List.Forall₂ (Renamed cache st) q.constraints q'.constraints

theorem canonicalizeWith_ends (h : solver.Inv cache) (hq : q.Admissible cache) :
    Ensures (fun err => q.form cache = .error err)
      (canonicalizeWith cache q.expr q.constraints)
      (.start solver.canonicalArrayMap solver.canonicalArraySet) fun r st =>
        Ends cache q ⟨r.2, r.1⟩ st := by
  have hinv := inv_start h.pool h.mem_pool
  have hformed : (State.start solver.canonicalArrayMap solver.canonicalArraySet).Formed cache :=
    fun p hp => by cases hp
  obtain ⟨ht, hts⟩ := List.forall_mem_cons.mp hq.wellTyped
  obtain ⟨hc, hcs⟩ := List.forall_mem_cons.mp hq.clean
  obtain ⟨depth, hdepth⟩ := exists_forall_lt (·.weight + 1) q.constraints
  have hcs' : ∀ c ∈ q.constraints, c.wellTyped = true ∧ cache.Clean c ∧ c.weight + 1 < depth :=
    fun c hmem => ⟨hts c hmem, hcs c hmem, hdepth c hmem⟩
  have horder : q.numbering = (Numbering.empty.addAll q.expr.visitOrder).addAll
      (q.constraints.flatMap Expr.visitOrder) := by
    rw [← Numbering.addAll_append]
    rfl
  have hle : q.numbering.Le q.numbering := fun _ _ h => h
  unfold canonicalizeWith
  have he := (visitQuery_renames hinv ht hc).and
    (forms_visitQuery (q.expr.weight + 2) q.expr _ q.numbering hinv hformed ht hc
      (Nat.lt_succ_self _) (by
        rw [horder]
        exact Numbering.le_addAll _ _))
  refine (he.weaken fun err herr => by
    unfold Query.form Query.formOver Query.toCanonical
    rw [herr]
    rfl).bind ?_
  rintro e' st₁ ⟨⟨h₁, -, hre⟩, hf₁, hn₁, hform₁⟩
  have hrest := (mapM_renames (renames_visitQuery depth) q.constraints st₁ h₁ hcs').and
    (mapM_forms (n := q.numbering) (renames_visitQuery depth) (forms_visitQuery depth)
      q.constraints st₁ h₁ hf₁ hcs' (by
        rw [hn₁, horder]
        exact fun _ _ h => h))
  refine (hrest.weaken fun err herr => by
    unfold Query.form Query.formOver Query.toCanonical
    rw [hform₁, herr]
    rfl).bind ?_
  rintro cs' st₂ ⟨⟨h₂, hg₂, hrs⟩, hf₂, hn₂, hform₂⟩
  refine Ensures.pure ⟨h₂, ?_, ?_, hre.mono hg₂, hrs⟩
  · rw [hn₂, hn₁, horder]
    rfl
  · unfold Query.form Query.formOver Query.toCanonical
    rw [hform₁, hform₂]
    rfl

/-- The outcome of the call is the form of the query, whatever the pool. -/
theorem canonicalize_form (h : solver.Inv cache) (hq : q.Admissible cache) :
    Prod.fst <$> canonicalize cache q solver = q.form cache := by
  have hends := canonicalizeWith_ends h hq
  unfold Ensures at hends
  unfold canonicalize
  split at hends
  next r st hr =>
    rw [hr, hends.form]
    rfl
  next err herr =>
    rw [herr, hends]
    rfl

theorem canonicalize_ends {solver' : CanonicalSolver} (h : solver.Inv cache)
    (hq : q.Admissible cache) (hrun : canonicalize cache q solver = .ok (q', solver')) :
    solver'.Inv cache ∧ ∃ st, Ends cache q q' st := by
  have hends := canonicalizeWith_ends h hq
  unfold Ensures at hends
  unfold canonicalize at hrun
  split at hends
  next r st hr =>
    rw [hr] at hrun
    cases hrun
    exact ⟨⟨hends.inv.pool, hends.inv.mem_pool⟩, st, hends⟩
  next err herr =>
    rw [herr] at hrun
    cases hrun

/-- The solvers that have served queries over arrays that are not canonical. -/
def Reached (cache : ArrayCache) (solver : CanonicalSolver) : Prop :=
  ∃ before forms : List Query, (∀ q ∈ before, q.Admissible cache) ∧
    before.mapM (canonicalize cache) {} = .ok (forms, solver)

theorem inv_mapM : ∀ (qs : List Query) {solver solver' : CanonicalSolver} {forms : List Query},
    solver.Inv cache → (∀ q ∈ qs, q.Admissible cache) →
    qs.mapM (canonicalize cache) solver = .ok (forms, solver') → solver'.Inv cache
  | [], _, _, _, h, _, hrun => by
    cases hrun
    exact h
  | q :: qs, solver, solver', forms, h, hqs, hrun => by
    obtain ⟨hq, hqs⟩ := List.forall_mem_cons.mp hqs
    rw [List.mapM_cons] at hrun
    obtain ⟨⟨q', solver₁⟩, h₁, hrun⟩ := ExprReplaceVisitor.bind_eq_ok.mp hrun
    obtain ⟨⟨forms', solver₂⟩, h₂, hrun⟩ := ExprReplaceVisitor.bind_eq_ok.mp hrun
    cases hrun
    exact inv_mapM qs (canonicalize_ends h hq h₁).1 hqs h₂

theorem Reached.inv (h : solver.Reached cache) : solver.Inv cache := by
  obtain ⟨before, forms, hb, hrun⟩ := h
  exact inv_mapM before ⟨by simp, by simp⟩ hb hrun

namespace Ends

variable {st : State} (h : Ends cache q q' st)

include h

theorem index_of_mem {a : KleeArray} (ha : a ∈ q.visitOrder) :
    ∃ i, st.arrayIndexMap a = some i ∧ q.toCanonical cache a = cache.canonicalArray a.size i := by
  obtain ⟨i, hi⟩ := Numbering.index_addAll (n := .empty) ha
  have hst : st.arrayIndexMap a = some i := (congrArg (Numbering.index · a) h.numbering).trans hi
  refine ⟨i, hst, ?_⟩
  simp only [Query.toCanonical, Query.numbering, Numbering.toCanonical, hi]

theorem mem_of_index {a : KleeArray} {i : ℕ} (ha : st.arrayIndexMap a = some i) :
    a ∈ q.visitOrder := by
  have hq : q.numbering.index a = some i := (congrArg (Numbering.index · a) h.numbering).symm.trans ha
  exact (Numbering.index_of_addAll hq).resolve_right (by simp [Numbering.empty])

open Classical in
/-- Under assignments that match, the expressions have the values they had. -/
theorem eval_eq (hq : q.Admissible cache) {σ τ : Assignment}
    (hστ : ∀ a ∈ q.visitOrder, τ (q.toCanonical cache a) = σ a) :
    q'.expr.eval τ = q.expr.eval σ ∧
      q'.constraints.map (·.eval τ) = q.constraints.map (·.eval σ) := by
  set μ : Assignment := fun a => if cache.IsCanonical a then τ a else σ a with hμ
  have hclean : ∀ a, ¬ cache.IsCanonical a → μ a = σ a := fun a ha => if_neg ha
  have hcan : ∀ a, cache.IsCanonical a → μ a = τ a := fun a ha => if_pos ha
  have hlink : CanonicalVisitor.Linked cache μ st := by
    intro a i ha
    obtain ⟨j, hj, hja⟩ := h.index_of_mem (h.mem_of_index ha)
    rw [ha] at hj
    cases hj
    rw [hclean a (h.inv.clean a i ha), hcan _ ⟨a.size, i, rfl⟩, ← hστ a (h.mem_of_index ha), hja]
  have heval : ∀ {e e' : Expr}, cache.Clean e → Renamed cache st e e' → e'.eval τ = e.eval σ := by
    intro e e' hc hr
    calc e'.eval τ = e'.eval μ :=
          e'.eval_congr fun a ha => (hcan a (h.inv.isCanonical (hr.isOver a ha))).symm
      _ = e.eval μ := hr.eval μ hlink
      _ = e.eval σ := e.eval_congr fun a ha => hclean a (hc a ha)
  obtain ⟨hc, hcs⟩ := List.forall_mem_cons.mp hq.clean
  refine ⟨heval hc h.expr, ?_⟩
  have hall := h.constraints
  generalize q.constraints = cs, q'.constraints = cs' at hall hcs ⊢
  induction hall with
  | nil => rfl
  | cons hr _ ih =>
    obtain ⟨hc, hcs⟩ := List.forall_mem_cons.mp hcs
    rw [List.map_cons, List.map_cons, heval hc hr, ih hcs]

end Ends

/-- Values that correspond leave validity as it is. -/
theorem valid_of_eval {f : KleeArray → KleeArray} {S : Set KleeArray} (hf : Set.InjOn f S)
    (h : ∀ σ τ : Assignment, (∀ a ∈ S, τ (f a) = σ a) → q'.expr.eval τ = q.expr.eval σ ∧
      q'.constraints.map (·.eval τ) = q.constraints.map (·.eval σ)) : q'.Valid ↔ q.Valid := by
  have hsat : ∀ {σ τ : Assignment}, q'.constraints.map (·.eval τ) = q.constraints.map (·.eval σ) →
      (Satisfies τ q'.constraints ↔ Satisfies σ q.constraints) := by
    intro σ τ heq
    have hmap : ∀ (ρ : Assignment) (cs : List Expr),
        Satisfies ρ cs ↔ ∀ v ∈ cs.map (·.eval ρ), v.isTrue = true := by
      intro ρ cs
      simp [Satisfies, Holds]
    rw [hmap, hmap, heq]
  constructor
  · intro hv σ hσ
    classical
    let τ : Assignment := fun c => if hc : ∃ a ∈ S, f a = c then σ hc.choose else σ c
    have hτ : ∀ a ∈ S, τ (f a) = σ a := by
      intro a ha
      have hex : ∃ b ∈ S, f b = f a := ⟨a, ha, rfl⟩
      have hb := hex.choose_spec
      simp only [τ, dif_pos hex, hf hb.1 ha hb.2]
    obtain ⟨he, hcs⟩ := h σ τ hτ
    have hholds := hv τ ((hsat hcs).mpr hσ)
    unfold Holds at hholds ⊢
    rwa [← he]
  · intro hv τ hτ
    obtain ⟨he, hcs⟩ := h (fun a => τ (f a)) τ fun _ _ => rfl
    have hholds := hv _ ((hsat hcs).mp hτ)
    unfold Holds at hholds ⊢
    rwa [he]

/-- Whatever the solver has served before: the outcome is the form of the query over one
renaming of its arrays into canonical ones. It is the query under that renaming as far as
values go, and to the letter where each node is as its constructor leaves it; and a renaming
of the query comes to the same. -/
theorem canonicalize_run (hs : solver.Reached cache) (hq : q.Admissible cache) :
    (∀ q' solver', canonicalize cache q solver = .ok (q', solver') →
      ∃ f, IsRenaming f {a | a ∈ q.visitOrder} ∧ (∀ a ∈ q.visitOrder, cache.IsCanonical (f a)) ∧
        q.formOver f = .ok q' ∧
        (∀ σ τ : Assignment, (∀ a ∈ q.visitOrder, τ (f a) = σ a) →
          q'.expr.eval τ = q.expr.eval σ ∧
            q'.constraints.map (·.eval τ) = q.constraints.map (·.eval σ)) ∧
        (q'.Valid ↔ q.Valid) ∧ (q.Normal → q' = q.rename f)) ∧
    (q.Normal → ∃ q' solver', canonicalize cache q solver = .ok (q', solver')) ∧
    ∀ f solver₂, IsRenaming f {a | a ∈ q.visitOrder} → (q.rename f).Admissible cache →
      Reached cache solver₂ →
      Prod.fst <$> canonicalize cache (q.rename f) solver₂ = Prod.fst <$> canonicalize cache q solver := by
  have hform := canonicalize_form hs.inv hq
  refine ⟨fun q' solver' hrun => ?_, fun hn => ?_, fun f solver₂ hf hq' hs₂ => ?_⟩
  · obtain ⟨-, st, hends⟩ := canonicalize_ends hs.inv hq hrun
    have hren := q.isRenaming_toCanonical cache
    refine ⟨q.toCanonical cache, hren, fun a => Query.isCanonical_toCanonical, hends.form,
      fun σ τ hστ => hends.eval_eq hq hστ,
      valid_of_eval hren.injOn fun σ τ hστ => hends.eval_eq hq hστ, fun hn => ?_⟩
    have heq := (Query.form_of_normal hn).symm.trans hends.form
    exact (Except.ok.inj heq).symm
  · rw [Query.form_of_normal hn] at hform
    cases hrun : canonicalize cache q solver with
    | ok r => exact ⟨r.1, r.2, rfl⟩
    | error err =>
      rw [hrun] at hform
      cases hform
  · rw [canonicalize_form hs₂.inv hq', hform, Query.form_rename hf hq hq']

def plainCache : ArrayCache := .plain

theorem admissible_of_names {e : Expr} (ht : e.wellTyped = true)
    (hr : ∀ a ∈ e.symbolicRoots, a.name.toList.head? ≠ some 'c') :
    Query.Admissible plainCache ⟨[], e⟩ := by
  refine ⟨by simpa [Query.exprs] using ht, ?_⟩
  simp only [Query.exprs, List.forall_mem_singleton]
  exact fun a ha => plainCache.not_isCanonical_of_name (hr a ha)

theorem reached_empty : Reached plainCache {} := ⟨[], [], by simp, rfl⟩

/-- The first byte of an array. -/
def byteOf (name : String) : Expr := .read (.root ⟨name, 1, 0, []⟩) (.alloc 0 32)

/-- A byte is zero, for one name and for another. -/
theorem canonicalize_run_byte :
    let q : Query := ⟨[], .binary .Eq (.alloc 0 8) (byteOf "x")⟩
    let q₂ : Query := ⟨[], .binary .Eq (.alloc 0 8) (byteOf "y")⟩
    (∃ q' solver', canonicalize plainCache q {} = .ok (q', solver')) ∧
      Prod.fst <$> canonicalize plainCache q₂ {} = Prod.fst <$> canonicalize plainCache q {} := by
  intro q q₂
  have hq : q.Admissible plainCache := admissible_of_names (by decide) (by decide)
  have hq₂ : q₂.Admissible plainCache := admissible_of_names (by decide) (by decide)
  have hn : q.Normal := by
    simp only [q, Query.Normal, Query.exprs, byteOf, List.forall_mem_singleton, Expr.Normal,
      UpdateList.Normal]
    exact ⟨trivial, ⟨trivial, trivial, rfl⟩, rfl⟩
  have horder : q.visitOrder = [⟨"x", 1, 0, []⟩] := rfl
  obtain ⟨-, hreturns, hsame⟩ := canonicalize_run reached_empty hq
  refine ⟨hreturns hn, hsame (fun _ => ⟨"y", 1, 0, []⟩) {} ⟨?_, ?_, ?_⟩ hq₂ reached_empty⟩
  · exact fun _ _ => rfl
  · intro a ha
    rw [horder] at ha
    rw [List.mem_singleton.mp ha]
  · intro a ha b hb _
    rw [horder] at ha hb
    rw [List.mem_singleton.mp ha, List.mem_singleton.mp hb]

/-- An equality of a byte with itself, made without its constructor, becomes true. -/
theorem canonicalize_not_renaming : ¬ ∀ (cache : ArrayCache) (solver : CanonicalSolver) (q : Query),
    solver.Reached cache → q.Admissible cache → ∀ q' solver',
      canonicalize cache q solver = .ok (q', solver') → ∃ f, q' = q.rename f := by
  intro h
  obtain ⟨f, hf⟩ := h plainCache {} ⟨[], .binary .Eq (byteOf "x") (byteOf "x")⟩ reached_empty
    (admissible_of_names (by decide) (by decide)) ⟨[], .alloc 1 1⟩ _ rfl
  simp [Query.rename, Expr.alloc] at hf

end CanonicalSolver

end TaseVerifier
