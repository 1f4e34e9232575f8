import TaseVerifier.Expr.Kids
import TaseVerifier.Solver.Canonical

/-! The canonicaliser returns on every query whose arrays are not canonical themselves,
and what it returns has the values of the query: the renaming is injective and keeps
sizes, so that assignments of the arrays and of the canonical arrays match. -/

namespace TaseVerifier

open Library

/-! ### Canonical arrays -/

theorem toString_nat_inj {m n : ℕ} (h : toString m = toString n) : m = n := by
  rw [Nat.toString_eq_ofList_toDigits, Nat.toString_eq_ofList_toDigits] at h
  have hdigits : Nat.toDigits 10 m = Nat.toDigits 10 n := String.ofList_injective h
  calc m = Nat.ofDigitChars 10 (Nat.toDigits 10 m) 0 := Nat.ofDigitChars_ten_toDigits.symm
    _ = Nat.ofDigitChars 10 (Nat.toDigits 10 n) 0 := by rw [hdigits]
    _ = n := Nat.ofDigitChars_ten_toDigits

theorem canonicalName_inj {sz i j : ℕ} (h : canonicalName sz i = canonicalName sz j) : i = j :=
  toString_nat_inj ((String.append_right_inj _).mp h)

/-- The names begin with the letter `c`. -/
theorem head_canonicalName (sz k : ℕ) : (canonicalName sz k).toList.head? = some 'c' := by
  simp [canonicalName, String.toList_append]

namespace ArrayCache

variable (cache : ArrayCache)

@[simp] theorem size_canonicalArray (sz i : ℕ) : (cache.canonicalArray sz i).size = sz :=
  cache.size_createArray _ _

@[simp] theorem isSymbolicArray_canonicalArray (sz i : ℕ) :
    (cache.canonicalArray sz i).isSymbolicArray = true :=
  cache.isSymbolicArray_createArray _ _

theorem canonicalArray_inj {sz sz' i j : ℕ}
    (h : cache.canonicalArray sz i = cache.canonicalArray sz' j) : sz = sz' ∧ i = j := by
  have hsz : sz = sz' := by simpa using congrArg KleeArray.size h
  subst hsz
  have hname := congrArg KleeArray.name h
  simp only [canonicalArray, cache.name_createArray] at hname
  exact ⟨rfl, Nat.succ_inj.mp (canonicalName_inj hname)⟩

/-- The arrays the canonicaliser names. -/
def IsCanonical (a : KleeArray) : Prop := ∃ sz i, a = cache.canonicalArray sz i

/-- No symbolic array of the expression is canonical. -/
def Clean (e : Expr) : Prop := ∀ a ∈ e.symbolicRoots, ¬ cache.IsCanonical a

theorem not_isCanonical_of_name {a : KleeArray} (h : a.name.toList.head? ≠ some 'c') :
    ¬ cache.IsCanonical a := by
  rintro ⟨sz, i, rfl⟩
  rw [canonicalArray, cache.name_createArray] at h
  exact h (head_canonicalName sz (i + 1))

theorem hereditary_clean : Hereditary cache.Clean
    (fun u => ∀ a ∈ u.symbolicRoots, ¬ cache.IsCanonical a) :=
  hereditary_roots (¬ cache.IsCanonical ·)

end ArrayCache

/-! ### Settled expressions -/

mutual
/-- The reads of constant arrays are as their constructor leaves them. -/
def Expr.Settled : Expr → Prop
  | .constant _ => True
  | .notOptimized s => s.Settled
  | .read u i => u.Settled ∧ i.Settled ∧
    (u.array.isSymbolicArray = true ∨ ReadExpr.create u i = .read u i)
  | .select c t f => c.Settled ∧ t.Settled ∧ f.Settled
  | .concat l r => l.Settled ∧ r.Settled
  | .extract e _ _ => e.Settled
  | .not e => e.Settled
  | .cast _ e _ => e.Settled
  | .binary _ l r => l.Settled ∧ r.Settled
def UpdateList.Settled : UpdateList → Prop
  | .root _ => True
  | .node i v next => i.Settled ∧ v.Settled ∧ next.Settled
end

section

attribute [local simp] Expr.Settled

theorem nodeWise_settled : NodeWise Expr.Settled where
  constant _ := by simp
  select _ _ _ := by simp
  concat _ _ := by simp
  extract _ _ _ := by simp
  not _ := by simp
  cast _ _ _ := by simp
  binary _ _ _ _ := by simp

theorem settled_binary (k : BinaryKind) (l r : Expr) :
    (Expr.binary k l r).Settled ↔ l.Settled ∧ r.Settled := by simp

theorem Expr.settled_kids {e : Expr} (h : ∀ u i, e ≠ .read u i) :
    e.Settled ↔ ∀ k ∈ e.kids, k.Settled := by
  cases e with
  | read u i => exact absurd rfl (h u i)
  | _ => simp [Expr.kids]

end

theorem UpdateList.Settled.scan {index v : Expr} {u : UpdateList} (hu : u.Settled)
    (h : ReadExpr.scan index u = .inl v) : v.Settled := by
  fun_induction ReadExpr.scan index u with
  | case1 => cases h
  | case2 =>
    cases h
    simp only [UpdateList.Settled] at hu
    exact hu.2.1
  | case3 i v next c _ _ ih =>
    simp only [UpdateList.Settled] at hu
    exact ih hu.2.2 h
  | case4 => cases h

/-- What the constructor of reads returns is settled. -/
theorem settled_read_create {u : UpdateList} {i : Expr} (hu : u.Settled) (hi : i.Settled) :
    (ReadExpr.create u i).Settled := by
  have hread : ReadExpr.create u i = .read u i → (ReadExpr.create u i).Settled := by
    intro h
    have hsettled : (Expr.read u i).Settled := by
      simp only [Expr.Settled]
      exact ⟨hu, hi, .inr h⟩
    rwa [h]
  by_cases h : ReadExpr.create u i = .read u i
  · exact hread h
  · unfold ReadExpr.create at h ⊢
    split
    next v hv => exact hu.scan hv
    next b hb =>
      rw [hb] at h
      simp only at h
      split_ifs at h ⊢
      · split
        next c =>
          simp only at h
          split_ifs at h ⊢
          · simp [Expr.Settled]
          · exact absurd rfl h
        next hne =>
          split at h
          next c => exact absurd rfl (hne c)
          next => exact absurd rfl h
      · exact absurd rfl h

theorem UpdateList.array_mem_symbolicRoots : ∀ {u : UpdateList}, u.array.isSymbolicArray = true →
    u.array ∈ u.symbolicRoots
  | .root a, h => by simpa [UpdateList.symbolicRoots, UpdateList.array] using h
  | .node i v next, h => by
    simp only [UpdateList.symbolicRoots, List.mem_append]
    exact .inr (UpdateList.array_mem_symbolicRoots h)

namespace CanonicalVisitor

variable (cache : ArrayCache)

/-! ### The renaming -/

/-- `σ` gives a canonical array the contents of the array it stands for. -/
def Linked (σ : Assignment) (st : State) : Prop :=
  ∀ a i, st.arrayIndexMap a = some i → σ (cache.canonicalArray a.size i) = σ a

/-- The maps only grow. -/
structure Grows (st st' : State) : Prop where
  index : ∀ a i, st.arrayIndexMap a = some i → st'.arrayIndexMap a = some i
  pool : ∀ a ∈ st.canonicalArraySet, a ∈ st'.canonicalArraySet

/-- `e'` stands for `e`: it is over canonical arrays, and has its value. -/
structure Renamed (st : State) (e e' : Expr) : Prop where
  wellTyped : e'.wellTyped = true
  getWidth : e'.getWidth = e.getWidth
  eval : ∀ σ, Linked cache σ st → e'.eval σ = e.eval σ
  isOver : e'.Over st.canonicalArraySet
  settled : e'.Settled
  weight : e'.weight ≤ e.weight

/-- The maps are consistent, and the table of visited nodes holds results. -/
structure State.Inv (st : State) : Prop where
  pool : ∀ sz i a, (st.canonicalArrayMap sz)[i]? = some a → a = cache.canonicalArray sz i
  mem_pool : ∀ a, a ∈ st.canonicalArraySet ↔ a ∈ st.canonicalArrayMap a.size
  lru : ∀ sz, st.sizeLRUMap sz ≤ (st.canonicalArrayMap sz).length
  index_lt : ∀ a i, st.arrayIndexMap a = some i → i < st.sizeLRUMap a.size
  injective : ∀ a b i, a.size = b.size → st.arrayIndexMap a = some i →
    st.arrayIndexMap b = some i → a = b
  clean : ∀ a i, st.arrayIndexMap a = some i → ¬ cache.IsCanonical a
  visited : ∀ p ∈ st.visited, Renamed cache st p.1 p.2
  unchanged : ∀ p ∈ st.visited, p.1.Settled →
    (∀ a ∈ p.1.symbolicRoots, cache.IsCanonical a) → p.2 = p.1

variable {cache} {st st' st'' : State} {e e' : Expr}

theorem Grows.refl (st : State) : Grows st st := ⟨fun _ _ h => h, fun _ h => h⟩

theorem Grows.trans (h : Grows st st') (h' : Grows st' st'') : Grows st st'' :=
  ⟨fun a i ha => h'.index a i (h.index a i ha), fun a ha => h'.pool a (h.pool a ha)⟩

theorem Grows.linked {σ : Assignment} (h : Grows st st') (hσ : Linked cache σ st') :
    Linked cache σ st :=
  fun a i ha => hσ a i (h.index a i ha)

theorem Grows.isOver (h : Grows st st') (he : e.Over st.canonicalArraySet) :
    e.Over st'.canonicalArraySet :=
  fun a ha => h.pool a (he a ha)

theorem Renamed.mono (h : Renamed cache st e e') (hg : Grows st st') : Renamed cache st' e e' :=
  { h with
    eval := fun σ hσ => h.eval σ (hg.linked hσ)
    isOver := hg.isOver h.isOver }

theorem State.Inv.isCanonical (h : st.Inv cache) {a : KleeArray} (ha : a ∈ st.canonicalArraySet) :
    cache.IsCanonical a := by
  obtain ⟨i, hi⟩ := List.mem_iff_getElem?.mp ((h.mem_pool a).mp ha)
  exact ⟨_, i, h.pool _ i a hi⟩

/-- A root in the pool would be symbolic, and so one of the expression's own. -/
theorem not_mem_pool_of_clean {u : UpdateList} {i : Expr} (h : st.Inv cache)
    (hc : cache.Clean (.read u i)) : u.array ∉ st.canonicalArraySet := by
  intro hmem
  obtain ⟨sz, j, heq⟩ := h.isCanonical hmem
  have hsym : u.array.isSymbolicArray = true := heq ▸ cache.isSymbolicArray_canonicalArray sz j
  exact ((cache.hereditary_clean.read u i).mp hc).1 _
    (UpdateList.array_mem_symbolicRoots hsym) ⟨sz, j, heq⟩

/-- `array` may be the root in place of `root`. -/
structure StandsFor (cache : ArrayCache) (st : State) (root array : KleeArray) : Prop where
  wellTyped : array.wellTyped = true
  isOver : array.isSymbolicArray = true → array ∈ st.canonicalArraySet
  initialValue : ∀ σ, Linked cache σ st → ∀ i, array.initialValue σ i = root.initialValue σ i

theorem standsFor_canonicalArray {root : KleeArray} {i : ℕ} (hsym : root.isSymbolicArray = true)
    (hi : st.arrayIndexMap root = some i)
    (hmem : cache.canonicalArray root.size i ∈ st.canonicalArraySet) :
    StandsFor cache st root (cache.canonicalArray root.size i) where
  wellTyped := by
    have hsym' := cache.isSymbolicArray_canonicalArray root.size i
    have hnil : (cache.canonicalArray root.size i).constantValues = [] := by
      simpa [KleeArray.isSymbolicArray] using hsym'
    simp [KleeArray.wellTyped, hsym', hnil]
  isOver _ := hmem
  initialValue σ hσ j := by
    simp only [KleeArray.initialValue, ArrayCache.isSymbolicArray_canonicalArray,
      ArrayCache.size_canonicalArray, hsym, hσ root i hi, if_true]

theorem update_some {α β : Type} [DecidableEq α] {f : α → Option β} {a b : α} {v w : β}
    (h : Function.update f a (some v) b = some w) : b = a ∧ w = v ∨ b ≠ a ∧ f b = some w := by
  rw [Function.update_apply] at h
  split_ifs at h with hb
  · exact .inl ⟨hb, (Option.some.inj h).symm⟩
  · exact .inr ⟨hb, h⟩

/-- The next array of the pool is given to a root that has none. -/
theorem State.Inv.assign (h : st.Inv cache) {root : KleeArray} (hnew : st.arrayIndexMap root = none)
    (hlt : st.sizeLRUMap root.size < (st.canonicalArrayMap root.size).length)
    (hclean : ¬ cache.IsCanonical root) :
    (st.assign root).Inv cache ∧ Grows st (st.assign root) := by
  have hg : Grows st (st.assign root) := by
    refine ⟨fun a i ha => ?_, fun _ ha => ha⟩
    have hne : a ≠ root := fun heq => by simp [heq, hnew] at ha
    simpa [State.assign, Function.update_of_ne hne] using ha
  refine ⟨⟨h.pool, h.mem_pool, ?_, ?_, ?_, ?_, fun p hp => (h.visited p hp).mono hg, h.unchanged⟩, hg⟩
  · intro sz
    simp only [State.assign, Function.update_apply]
    split_ifs with hsz
    · exact hsz ▸ hlt
    · exact h.lru sz
  · intro a i ha
    simp only [State.assign, Function.update_apply st.sizeLRUMap]
    rcases update_some ha with ⟨rfl, rfl⟩ | ⟨-, ha⟩
    · simp
    · have hi := h.index_lt a i ha
      split_ifs with hsz
      · rw [hsz] at hi
        omega
      · exact hi
  · -- places in use are below the next one
    intro a b i hsz ha hb
    rcases update_some ha with ⟨ha₁, ha₂⟩ | ⟨-, ha'⟩ <;>
      rcases update_some hb with ⟨hb₁, hb₂⟩ | ⟨-, hb'⟩
    · exact ha₁.trans hb₁.symm
    · have hlt := h.index_lt b i hb'
      rw [← hsz, ha₁] at hlt
      omega
    · have hlt := h.index_lt a i ha'
      rw [hsz, hb₁] at hlt
      omega
    · exact h.injective a b i hsz ha' hb'
  · intro a i ha
    rcases update_some ha with ⟨rfl, -⟩ | ⟨-, ha⟩
    · exact hclean
    · exact h.clean a i ha

/-- A new array extends the pool of its size. -/
theorem State.Inv.insert (h : st.Inv cache) (sz : ℕ) :
    let array := cache.canonicalArray sz (st.canonicalArrayMap sz).length
    (st.insert array).Inv cache ∧ Grows st (st.insert array) ∧
      (st.insert array).canonicalArrayMap sz = st.canonicalArrayMap sz ++ [array] := by
  intro array
  have hsize : array.size = sz := cache.size_canonicalArray _ _
  have hmap : ∀ sz', (st.insert array).canonicalArrayMap sz' =
      if sz' = sz then st.canonicalArrayMap sz ++ [array] else st.canonicalArrayMap sz' := by
    intro sz'
    simp only [State.insert, hsize, Function.update_apply]
  have hg : Grows st (st.insert array) := ⟨fun _ _ ha => ha, fun _ ha => List.mem_cons_of_mem _ ha⟩
  refine ⟨⟨?_, ?_, ?_, h.index_lt, h.injective, h.clean, fun p hp => (h.visited p hp).mono hg,
    h.unchanged⟩, hg, by rw [hmap, if_pos rfl]⟩
  · intro sz' i a ha
    rw [hmap] at ha
    split_ifs at ha with hsz
    · subst hsz
      rw [List.getElem?_append] at ha
      split_ifs at ha with hi
      · exact h.pool sz' i a ha
      · rw [List.getElem?_singleton] at ha
        split_ifs at ha with hz
        have hlen : i = (st.canonicalArrayMap sz').length := by omega
        rw [hlen]
        exact (Option.some.inj ha).symm
    · exact h.pool sz' i a ha
  · intro a
    rw [hmap]
    have hset : (st.insert array).canonicalArraySet = array :: st.canonicalArraySet := rfl
    rw [hset, List.mem_cons, h.mem_pool a]
    split_ifs with hsz
    · rw [List.mem_append, List.mem_singleton, hsz, or_comm]
    · exact or_iff_right fun heq => hsz (heq ▸ hsize)
  · intro sz'
    have hlru := h.lru sz'
    rw [hmap]
    split_ifs with hsz
    · rw [List.length_append, ← hsz]
      exact hlru.trans (Nat.le_add_right _ _)
    · exact hlru

/-- A symbolic root has a canonical array afterwards. -/
theorem canonicalRoot_spec {E : Abort → Prop} {root : KleeArray} (h : st.Inv cache)
    (hsym : root.isSymbolicArray = true) (hclean : ¬ cache.IsCanonical root) :
    Ensures E (canonicalRoot cache root) st fun array st' =>
      st'.Inv cache ∧ Grows st st' ∧ StandsFor cache st' root array := by
  have hmem : ∀ {st' : State} {i : ℕ} {a : KleeArray}, st'.Inv cache →
      (st'.canonicalArrayMap root.size)[i]? = some a → st'.arrayIndexMap root = some i →
      StandsFor cache st' root a := by
    intro st' i a h' ha hi
    obtain rfl := h'.pool _ _ _ ha
    refine standsFor_canonicalArray hsym hi ((h'.mem_pool _).mpr ?_)
    rw [cache.size_canonicalArray]
    exact List.mem_of_getElem? ha
  have hindex : ∀ st' : State, (st'.assign root).arrayIndexMap root = some (st'.sizeLRUMap root.size) :=
    fun st' => Function.update_self ..
  unfold canonicalRoot
  refine Ensures.get_bind ?_
  split
  next i hi =>
    have hlt : i < (st.canonicalArrayMap root.size).length :=
      lt_of_lt_of_le (h.index_lt root i hi) (h.lru root.size)
    refine Ensures.pure ⟨h, Grows.refl st, hmem h (i := i) ?_ hi⟩
    rw [List.getElem?_eq_getElem hlt]
    rfl
  next hnew =>
    dsimp only
    split
    next array ha =>
      obtain ⟨h', hg⟩ := h.assign hnew (List.getElem?_eq_some_iff.mp ha).1 hclean
      exact ⟨h', hg, hmem h' ha (hindex st)⟩
    next hnone =>
      obtain ⟨h₁, hg₁, hmap⟩ := h.insert root.size
      have hlast : st.sizeLRUMap root.size = (st.canonicalArrayMap root.size).length :=
        le_antisymm (h.lru root.size) (List.getElem?_eq_none_iff.mp hnone)
      obtain ⟨h₂, hg₂⟩ := h₁.assign hnew (by
        rw [hmap, List.length_append, List.length_singleton]
        exact hlast ▸ Nat.lt_succ_self _) hclean
      refine ⟨h₂, hg₁.trans hg₂, hmem (i := (st.canonicalArrayMap root.size).length) h₂ ?_ ?_⟩
      · refine (congrArg (·[(st.canonicalArrayMap root.size).length]?) hmap).trans ?_
        exact List.getElem?_concat_length
      · rw [hindex]
        exact congrArg some hlast

theorem newRoot_spec {E : Abort → Prop} {root : KleeArray} (h : st.Inv cache)
    (ht : root.wellTyped = true) (hclean : root.isSymbolicArray = true → ¬ cache.IsCanonical root) :
    Ensures E (newRoot cache root) st fun array st' =>
      st'.Inv cache ∧ Grows st st' ∧ StandsFor cache st' root array := by
  unfold newRoot
  cases hsym : root.isSymbolicArray with
  | true =>
    rw [if_neg (by simp [KleeArray.isConstantArray, hsym])]
    exact canonicalRoot_spec h hsym (hclean hsym)
  | false =>
    rw [if_pos (by simp [KleeArray.isConstantArray, hsym])]
    exact Ensures.pure ⟨h, Grows.refl st, ht, fun h' => by simp [hsym] at h', fun _ _ _ => rfl⟩

/-! ### A visit of a settled expression -/

/-- The maps are as before, and the table has only got settled expressions over the pool,
which stand for themselves. -/
structure Quiet (st st' : State) : Prop where
  arrayIndexMap : st'.arrayIndexMap = st.arrayIndexMap
  sizeLRUMap : st'.sizeLRUMap = st.sizeLRUMap
  canonicalArraySet : st'.canonicalArraySet = st.canonicalArraySet
  visited : ∀ p ∈ st'.visited,
    p ∈ st.visited ∨ p.2 = p.1 ∧ p.1.Settled ∧ p.1.Over st.canonicalArraySet

theorem Quiet.refl (st : State) : Quiet st st := ⟨rfl, rfl, rfl, fun _ h => .inl h⟩

theorem Quiet.trans (h : Quiet st st') (h' : Quiet st' st'') : Quiet st st'' where
  arrayIndexMap := h'.arrayIndexMap.trans h.arrayIndexMap
  sizeLRUMap := h'.sizeLRUMap.trans h.sizeLRUMap
  canonicalArraySet := h'.canonicalArraySet.trans h.canonicalArraySet
  visited p hp := by
    rcases h'.visited p hp with hp | hp
    · exact h.visited p hp
    · rw [h.canonicalArraySet] at hp
      exact .inr hp

theorem Quiet.grows (h : Quiet st st') : Grows st st' :=
  ⟨fun a i ha => by rwa [h.arrayIndexMap], fun a ha => by rwa [h.canonicalArraySet]⟩

theorem Quiet.remember (h : Quiet st st') (hs : e.Settled) (ho : e.Over st.canonicalArraySet) :
    Quiet st (st'.remember e e) where
  arrayIndexMap := h.arrayIndexMap
  sizeLRUMap := h.sizeLRUMap
  canonicalArraySet := h.canonicalArraySet
  visited p hp := by
    rcases List.mem_cons.mp hp with rfl | hp
    · exact .inr ⟨rfl, hs, ho⟩
    · exact h.visited p hp

/-- `visit` returns settled expressions over the pool as they are, to the given depth. -/
def Keeps (cache : ArrayCache) (depth : ℕ) (visit : Expr → VisitM Expr) : Prop :=
  ∀ e st, st.Inv cache → e.wellTyped = true → e.Settled → e.Over st.canonicalArraySet →
    e.weight < depth → Ensures (fun _ => False) (visit e) st fun e' st' =>
      e' = e ∧ st'.Inv cache ∧ Quiet st st'

theorem renamed_self (he : e.wellTyped = true) (hs : e.Settled) (ho : e.Over st.canonicalArraySet) :
    Renamed cache st e e :=
  ⟨he, rfl, fun _ _ => rfl, ho, hs, le_rfl⟩

theorem revisit_same {E : Abort → Prop} {visit : Expr → VisitM Expr} {same : Bool}
    {rebuilt : Except Abort Expr} {Q : Expr → State → Prop} (hsame : same = true) (h : Q e st) :
    Ensures E (revisit visit e same rebuilt) st Q := by
  rw [revisit, if_pos hsame]
  exact Ensures.pure h

/-- Nodes other than reads: the kids in turn, then the node over what came of them. -/
theorem visitActual_kids {visit : Expr → VisitM Expr} (h : ∀ u i, e ≠ .read u i) :
    visitActual cache visit e =
      e.kids.mapM visit >>= fun ks => revisit visit e (ks = e.kids) (e.rebuild ks) := by
  cases e with
  | read u i => exact absurd rfl (h u i)
  | constant c => rfl
  | _ => simp [visitActual, Expr.kids, Expr.rebuild]

section Keeps

variable {depth : ℕ} {visit : Expr → VisitM Expr}

theorem mapM_keeps (hv : Keeps cache depth visit) : ∀ (ks : List Expr) (st : State),
    st.Inv cache → (∀ k ∈ ks, k.wellTyped = true ∧ k.Settled ∧ k.Over st.canonicalArraySet ∧
      k.weight < depth) →
    Ensures (fun _ => False) (ks.mapM visit) st fun ks' st' =>
      ks' = ks ∧ st'.Inv cache ∧ Quiet st st'
  | [], st, h, _ => Ensures.pure ⟨rfl, h, Quiet.refl st⟩
  | k :: ks, st, h, hks => by
    obtain ⟨⟨ht, hs, ho, hw⟩, hks⟩ := List.forall_mem_cons.mp hks
    rw [List.mapM_cons]
    refine (hv k st h ht hs ho hw).bind ?_
    rintro _ st₁ ⟨rfl, h₁, hq₁⟩
    refine (mapM_keeps hv ks st₁ h₁ (by rwa [hq₁.canonicalArraySet])).bind ?_
    rintro _ st₂ ⟨rfl, h₂, hq₂⟩
    exact Ensures.pure ⟨rfl, h₂, hq₁.trans hq₂⟩

theorem visitUpdates_keeps (hv : Keeps cache depth visit) :
    ∀ (u : UpdateList) (st : State), st.Inv cache → u.wellTyped = true → u.Settled →
      (∀ a ∈ u.symbolicRoots, a ∈ st.canonicalArraySet) → u.weight < depth →
      Ensures (fun _ => False) (visitUpdates visit u.array u) st fun u' st' =>
        u' = u ∧ st'.Inv cache ∧ Quiet st st'
  | .root a, st, h, _, _, _, _ => Ensures.pure ⟨rfl, h, Quiet.refl st⟩
  | .node i v next, st, h, ht, hs, ho, hw => by
    simp only [UpdateList.wellTyped, Bool.and_eq_true] at ht
    simp only [UpdateList.Settled] at hs
    obtain ⟨hoi, hov, hon⟩ := ((hereditary_over st.canonicalArraySet).node i v next).mp ho
    simp only [UpdateList.weight] at hw
    refine (visitUpdates_keeps hv next st h ht.1.1.2 hs.2.2 hon (by omega)).bind ?_
    rintro _ st₁ ⟨rfl, h₁, hq₁⟩
    refine (hv i st₁ h₁ ht.1.1.1.1 hs.1 (hq₁.grows.isOver hoi) (by omega)).bind ?_
    rintro _ st₂ ⟨rfl, h₂, hq₂⟩
    refine (hv v st₂ h₂ ht.1.1.1.2 hs.2.1 ((hq₁.trans hq₂).grows.isOver hov) (by omega)).bind ?_
    rintro _ st₃ ⟨rfl, h₃, hq₃⟩
    exact Ensures.pure ⟨rfl, h₃, (hq₁.trans hq₂).trans hq₃⟩

theorem visitRead_keeps (hv : Keeps cache depth visit) {u : UpdateList} {i : Expr}
    (h : st.Inv cache) (ht : (Expr.read u i).wellTyped = true) (hs : (Expr.read u i).Settled)
    (ho : (Expr.read u i).Over st.canonicalArraySet) (hw : (Expr.read u i).weight < depth + 1) :
    Ensures (fun _ => False) (visitActual cache visit (.read u i)) st fun e' st' =>
      e' = .read u i ∧ st'.Inv cache ∧ Quiet st st' := by
  simp only [Expr.wellTyped, Bool.and_eq_true] at ht
  simp only [Expr.Settled] at hs
  obtain ⟨hou, hoi⟩ := ((hereditary_over st.canonicalArraySet).read u i).mp ho
  simp only [Expr.weight] at hw
  refine Ensures.get_bind ?_
  split_ifs with hmem
  · refine (hv i st h ht.1.2 hs.2.1 hoi (by omega)).bind ?_
    rintro _ st₁ ⟨rfl, h₁, hq₁⟩
    exact revisit_same (by simp) ⟨rfl, h₁, hq₁⟩
  · have hconst : u.array.isSymbolicArray = false := by
      by_contra hsym
      exact hmem (hou _ (UpdateList.array_mem_symbolicRoots (by simpa using hsym)))
    unfold changeRead newRoot
    rw [if_pos (by simp [KleeArray.isConstantArray, hconst])]
    refine Ensures.bind (Q := fun a st' => a = u.array ∧ st' = st) (Ensures.pure ⟨rfl, rfl⟩) ?_
    rintro _ _ ⟨rfl, rfl⟩
    refine (visitUpdates_keeps hv u _ h ht.1.1 hs.1 hou (by omega)).bind ?_
    rintro _ st₁ ⟨rfl, h₁, hq₁⟩
    refine (hv i st₁ h₁ ht.1.2 hs.2.1 (hq₁.grows.isOver hoi) (by omega)).bind ?_
    rintro _ st₂ ⟨rfl, h₂, hq₂⟩
    refine Ensures.pure ⟨?_, h₂, hq₁.trans hq₂⟩
    exact hs.2.2.resolve_left (by simp [hconst])

theorem visitActual_keeps (hv : Keeps cache depth visit) (h : st.Inv cache)
    (ht : e.wellTyped = true) (hs : e.Settled) (ho : e.Over st.canonicalArraySet)
    (hw : e.weight < depth + 1) :
    Ensures (fun _ => False) (visitActual cache visit e) st fun e' st' =>
      e' = e ∧ st'.Inv cache ∧ Quiet st st' := by
  by_cases hread : ∃ u i, e = .read u i
  · obtain ⟨u, i, rfl⟩ := hread
    exact visitRead_keeps hv h ht hs ho hw
  · have hne : ∀ u i, e ≠ .read u i := fun u i heq => hread ⟨u, i, heq⟩
    rw [visitActual_kids hne]
    refine (mapM_keeps hv e.kids st h fun k hk => ⟨Expr.wellTyped_kids ht k hk, (Expr.settled_kids hne).mp hs k hk,
      (Expr.roots_kids hne _).mp ho k hk, ?_⟩).bind ?_
    · have := Expr.weight_kids hk
      omega
    · rintro _ st₁ ⟨rfl, h₁, hq₁⟩
      exact revisit_same (by simp) ⟨rfl, h₁, hq₁⟩

end Keeps

/-- A result enters the table. -/
theorem State.Inv.remember (h : st.Inv cache) (hr : Renamed cache st e e')
    (hsame : e.Settled → (∀ a ∈ e.symbolicRoots, cache.IsCanonical a) → e' = e) :
    (st.remember e e').Inv cache :=
  { pool := h.pool, mem_pool := h.mem_pool, lru := h.lru, index_lt := h.index_lt
    injective := h.injective, clean := h.clean
    visited := fun p hp => by
      rcases List.mem_cons.mp hp with rfl | hp
      · exact ⟨hr.wellTyped, hr.getWidth, hr.eval, hr.isOver, hr.settled, hr.weight⟩
      · have hv := h.visited p hp
        exact ⟨hv.wellTyped, hv.getWidth, hv.eval, hv.isOver, hv.settled, hv.weight⟩
    unchanged := fun p hp => by
      rcases List.mem_cons.mp hp with rfl | hp
      · exact hsame
      · exact h.unchanged p hp }

/-- The table answers, or the answer is computed and entered. -/
theorem lookup_spec {E : Abort → Prop} {actual : VisitM Expr} {Q : Expr → State → Prop}
    (hconst : e.isConstant = true → Ensures E actual st Q)
    (hhit : ∀ e', (e, e') ∈ st.visited → Q e' st)
    (hmiss : Ensures E actual st fun e' st' => Q e' (st'.remember e e')) :
    Ensures E (lookup e actual) st Q := by
  unfold lookup
  split_ifs with hc
  · exact hconst hc
  · refine Ensures.get_bind ?_
    split
    next e' he' =>
      refine Ensures.pure (hhit e' ?_)
      rw [List.lookup_eq_some_iff] at he'
      obtain ⟨l₁, l₂, hl, -⟩ := he'
      simp [hl]
    next =>
      refine hmiss.bind fun e' st' h => ?_
      exact h

theorem lookup_keeps {depth : ℕ} {visit : Expr → VisitM Expr} (hv : Keeps cache depth visit) :
    Keeps cache (depth + 1) fun e => lookup e (visitActual cache visit e) := by
  intro e st h ht hs ho hw
  have hactual := visitActual_keeps hv h ht hs ho hw
  refine lookup_spec (fun _ => hactual) (fun e' hmem => ?_) (hactual.mono ?_)
  · exact ⟨h.unchanged _ hmem hs fun a ha => h.isCanonical (ho a ha), h, Quiet.refl st⟩
  · rintro _ st' ⟨rfl, h', hq⟩
    exact ⟨rfl, h'.remember (renamed_self ht hs (hq.grows.isOver ho)) fun _ _ => rfl,
      hq.remember hs ho⟩

theorem visit_keeps : ∀ depth, Keeps cache depth (visit cache depth)
  | 0 => fun _ _ _ _ _ _ hw => absurd hw (Nat.not_lt_zero _)
  | depth + 1 => lookup_keeps (visit_keeps depth)

/-! ### A visit of an expression without canonical arrays -/

namespace Renamed

variable {l l' r r' : Expr}

/-- The constructors may rearrange the new node. -/
theorem agrees (h : Renamed cache st e l) (ha : Agrees l r) (ho : r.Over st.canonicalArraySet)
    (hs : r.Settled) (hw : r.weight ≤ l.weight) : Renamed cache st e r :=
  ⟨ha.wellTyped, ha.getWidth.trans h.getWidth, fun σ hσ => (ha.eval σ).trans (h.eval σ hσ), ho, hs,
    hw.trans h.weight⟩

theorem notOptimized (h : Renamed cache st e e') :
    Renamed cache st (.notOptimized e) (.notOptimized e') where
  wellTyped := h.wellTyped
  getWidth := h.getWidth
  eval := h.eval
  isOver := ((hereditary_over _).notOptimized e').mpr h.isOver
  settled := by simpa [Expr.Settled] using h.settled
  weight := Nat.succ_le_succ h.weight

theorem select {c c' : Expr} (ht : (Expr.select c l r).wellTyped = true)
    (hc : Renamed cache st c c') (hl : Renamed cache st l l') (hr : Renamed cache st r r') :
    Renamed cache st (.select c l r) (.select c' l' r') where
  wellTyped := by
    simp only [Expr.wellTyped, Bool.and_eq_true, beq_iff_eq] at ht
    simp [Expr.wellTyped, hc.wellTyped, hl.wellTyped, hr.wellTyped, hc.getWidth, hl.getWidth,
      hr.getWidth, ht.1.2, ht.2]
  getWidth := hl.getWidth
  eval σ hσ := by simp only [Expr.eval, hc.eval σ hσ, hl.eval σ hσ, hr.eval σ hσ]
  isOver := ((hereditary_over _).select c' l' r').mpr ⟨hc.isOver, hl.isOver, hr.isOver⟩
  settled := (nodeWise_settled.select c' l' r').mpr ⟨hc.settled, hl.settled, hr.settled⟩
  weight := by
    have := hc.weight
    have := hl.weight
    have := hr.weight
    simp only [Expr.weight]
    omega

theorem concat (hl : Renamed cache st l l') (hr : Renamed cache st r r') :
    Renamed cache st (.concat l r) (.concat l' r') where
  wellTyped := Expr.wellTyped_concat.mpr ⟨hl.wellTyped, hr.wellTyped⟩
  getWidth := by simp only [Expr.getWidth, hl.getWidth, hr.getWidth]
  eval σ hσ := by simp only [Expr.eval, hl.eval σ hσ, hr.eval σ hσ]
  isOver := ((hereditary_over _).concat l' r').mpr ⟨hl.isOver, hr.isOver⟩
  settled := (nodeWise_settled.concat l' r').mpr ⟨hl.settled, hr.settled⟩
  weight := by
    have := hl.weight
    have := hr.weight
    simp only [Expr.weight]
    omega

theorem extract {off w : ℕ} (ht : (Expr.extract e off w).wellTyped = true)
    (h : Renamed cache st e e') : Renamed cache st (.extract e off w) (.extract e' off w) where
  wellTyped := by
    obtain ⟨-, hpos, hle⟩ := Expr.wellTyped_extract.mp ht
    exact Expr.wellTyped_extract.mpr ⟨h.wellTyped, hpos, h.getWidth ▸ hle⟩
  getWidth := rfl
  eval σ hσ := by simp only [Expr.eval, h.eval σ hσ]
  isOver := ((hereditary_over _).extract e' off w).mpr h.isOver
  settled := (nodeWise_settled.extract e' off w).mpr h.settled
  weight := by
    have := h.weight
    simp only [Expr.weight]
    omega

theorem not (h : Renamed cache st e e') : Renamed cache st (.not e) (.not e') where
  wellTyped := h.wellTyped
  getWidth := h.getWidth
  eval σ hσ := by simp only [Expr.eval, h.eval σ hσ]
  isOver := ((hereditary_over _).not e').mpr h.isOver
  settled := (nodeWise_settled.not e').mpr h.settled
  weight := Nat.succ_le_succ h.weight

theorem cast {k : CastKind} {w : ℕ} (ht : (Expr.cast k e w).wellTyped = true)
    (h : Renamed cache st e e') : Renamed cache st (.cast k e w) (.cast k e' w) where
  wellTyped := by
    simp only [Expr.wellTyped, Bool.and_eq_true, decide_eq_true_eq] at ht
    simp [Expr.wellTyped, h.wellTyped, h.getWidth, ht.2]
  getWidth := rfl
  eval σ hσ := by simp only [Expr.eval, h.eval σ hσ]
  isOver := ((hereditary_over _).cast k e' w).mpr h.isOver
  settled := (nodeWise_settled.cast k e' w).mpr h.settled
  weight := by
    have := h.weight
    simp only [Expr.weight]
    omega

theorem binary {k : BinaryKind} (ht : (Expr.binary k l r).wellTyped = true)
    (hl : Renamed cache st l l') (hr : Renamed cache st r r') :
    Renamed cache st (.binary k l r) (.binary k l' r') where
  wellTyped := by
    simp only [Expr.wellTyped, Bool.and_eq_true, beq_iff_eq] at ht
    simp only [Expr.wellTyped, hl.wellTyped, hr.wellTyped, hl.getWidth, hr.getWidth, ht.1.2,
      Bool.and_self, beq_self_eq_true]
    rw [← ht.1.2]
    exact ht.2
  getWidth := by simp only [Expr.getWidth, hl.getWidth]
  eval σ hσ := by simp only [Expr.eval, hl.eval σ hσ, hr.eval σ hσ]
  isOver := (over_binary _ k l' r').mpr ⟨hl.isOver, hr.isOver⟩
  settled := (settled_binary k l' r').mpr ⟨hl.settled, hr.settled⟩
  weight := by
    have := hl.weight
    have := hr.weight
    simp only [Expr.weight]
    omega

end Renamed

/-- A node over kids that stand for themselves does so. -/
theorem renamed_of_kids (ht : e.wellTyped = true) (hne : ∀ u i, e ≠ .read u i)
    (h : List.Forall₂ (Renamed cache st) e.kids e.kids) : Renamed cache st e e := by
  have hk : ∀ k ∈ e.kids, Renamed cache st k k := List.forall₂_same.mp h
  exact renamed_self ht ((Expr.settled_kids hne).mpr fun k hmem => (hk k hmem).settled)
    ((Expr.roots_kids hne _).mpr fun k hmem => (hk k hmem).isOver)

/-- The node rebuilt over what stands for its kids stands for it. -/
theorem renamed_rebuild {ks : List Expr} {e₁ : Expr} (ht : e.wellTyped = true)
    (hne : ∀ u i, e ≠ .read u i) (h : List.Forall₂ (Renamed cache st) e.kids ks)
    (he : e.rebuild ks = .ok e₁) : Renamed cache st e e₁ := by
  cases e with
  | read u i => exact absurd rfl (hne u i)
  | constant c =>
    cases he
    exact renamed_self rfl trivial ((hereditary_over _).constant c)
  | notOptimized s =>
    obtain - | ⟨hs, - | _⟩ := h
    cases he
    exact hs.notOptimized
  | select c t f =>
    obtain - | ⟨hc, - | ⟨ht', - | ⟨hf, - | _⟩⟩⟩ := h
    cases he
    have hn := Renamed.select ht hc ht' hf
    exact hn.agrees (SelectExpr.create_agrees hn.wellTyped)
      ((hereditary_over _).select_create hc.isOver ht'.isOver hf.isOver)
      (nodeWise_settled.select_create hc.settled ht'.settled hf.settled)
      (SelectExpr.weight_create _ _ _)
  | concat l r =>
    obtain - | ⟨hl, - | ⟨hr, - | _⟩⟩ := h
    cases he
    have hn := hl.concat hr
    exact hn.agrees (ConcatExpr.create_agrees hn.wellTyped)
      ((hereditary_over _).concat_create hl.isOver hr.isOver)
      (nodeWise_settled.concat_create hl.settled hr.settled) (ConcatExpr.weight_create _ _)
  | extract e off w =>
    obtain - | ⟨hr, - | _⟩ := h
    cases he
    have hn := Renamed.extract ht hr
    exact hn.agrees (ExtractExpr.create_agrees hn.wellTyped)
      ((hereditary_over _).extract_create off w hr.isOver)
      (nodeWise_settled.extract_create off w hr.settled) (ExtractExpr.weight_create _ off w)
  | not e =>
    obtain - | ⟨hr, - | _⟩ := h
    cases he
    have hn := hr.not
    exact hn.agrees (NotExpr.create_agrees hn.wellTyped) ((hereditary_over _).not_create hr.isOver)
      (nodeWise_settled.not_create hr.settled) (NotExpr.weight_create _)
  | cast k e w =>
    obtain - | ⟨hr, - | _⟩ := h
    cases he
    have hn := Renamed.cast ht hr
    exact hn.agrees (CastExpr.create_agrees hn.wellTyped)
      ((hereditary_over _).cast_create w hr.isOver) (nodeWise_settled.cast_create w hr.settled)
      (CastExpr.weight_create k _ w)
  | binary k l r =>
    obtain - | ⟨hl, - | ⟨hr, - | _⟩⟩ := h
    have hn := Renamed.binary ht hl hr
    exact hn.agrees (BinaryExpr.create_agrees hn.wellTyped he)
      ((hereditary_over _).binary_create_all (over_binary _) hl.isOver hr.isOver he)
      (nodeWise_settled.binary_create_all settled_binary hl.settled hr.settled he)
      (BinaryExpr.weight_create he)

/-- `visit` returns what stands for its argument, to the given depth. -/
def Renames (cache : ArrayCache) (depth : ℕ) (visit : Expr → VisitM Expr) : Prop :=
  ∀ e st, st.Inv cache → e.wellTyped = true → cache.Clean e → e.weight + 1 < depth →
    Ensures (· = .divideByZero) (visit e) st fun e' st' =>
      st'.Inv cache ∧ Grows st st' ∧ Renamed cache st' e e'

section Renames

variable {depth : ℕ} {visit : Expr → VisitM Expr}

theorem revisit_renames (hk : Keeps cache depth visit) {st₀ : State} (hg : Grows st₀ st)
    (h : st.Inv cache) (hw : e.weight < depth) {same : Bool} {rebuilt : Except Abort Expr}
    (hsame : same = true → Renamed cache st e e)
    (hreb : ∀ e₁, rebuilt = .ok e₁ → Renamed cache st e e₁)
    (herr : ExprReplaceVisitor.OnlyDivides rebuilt) :
    Ensures (· = .divideByZero) (revisit visit e same rebuilt) st fun e' st' =>
      st'.Inv cache ∧ Grows st₀ st' ∧ Renamed cache st' e e' := by
  cases same with
  | true => exact revisit_same rfl ⟨h, hg, hsame rfl⟩
  | false =>
    cases hr : rebuilt with
    | error a => exact herr a hr
    | ok e₁ =>
      have h₁ := hreb e₁ hr
      have hkeep := hk e₁ st h h₁.wellTyped h₁.settled h₁.isOver (lt_of_le_of_lt h₁.weight hw)
      refine (hkeep.weaken fun _ => False.elim).mono ?_
      rintro _ st' ⟨rfl, h', hq⟩
      exact ⟨h', hg.trans hq.grows, h₁.mono hq.grows⟩

/-- What the walk over an update list returns. -/
structure RenamedList (cache : ArrayCache) (st : State) (array : KleeArray) (u u' : UpdateList) :
    Prop where
  wellTyped : u'.wellTyped = true
  root : u'.array = array
  eval : ∀ σ, Linked cache σ st → ∀ i, u'.evalRead σ i = u.evalRead σ i
  isOver : ∀ a ∈ u'.symbolicRoots, a ∈ st.canonicalArraySet
  settled : u'.Settled
  weight : u'.weight ≤ u.weight

theorem visitUpdates_renames (hv : Renames cache depth visit) {array : KleeArray} :
    ∀ (u : UpdateList) (st : State), st.Inv cache → StandsFor cache st u.array array →
      u.wellTyped = true → (∀ a ∈ u.symbolicRoots, ¬ cache.IsCanonical a) → u.weight + 1 < depth →
      Ensures (· = .divideByZero) (visitUpdates visit array u) st fun u' st' =>
        st'.Inv cache ∧ Grows st st' ∧ RenamedList cache st' array u u'
  | .root a, st, h, hroot, _, _, _ => by
    refine Ensures.pure ⟨h, Grows.refl st, hroot.wellTyped, rfl, fun σ hσ i => ?_, fun b hb => ?_,
      trivial, le_rfl⟩
    · exact hroot.initialValue σ hσ i.toNat
    · simp only [UpdateList.symbolicRoots] at hb
      split_ifs at hb with hsym
      · rw [List.mem_singleton.mp hb]
        exact hroot.isOver hsym
      · cases hb
  | .node i v next, st, h, hroot, ht, hc, hw => by
    simp only [UpdateList.wellTyped, Bool.and_eq_true, beq_iff_eq] at ht
    obtain ⟨hci, hcv, hcn⟩ := (cache.hereditary_clean.node i v next).mp hc
    simp only [UpdateList.weight] at hw
    refine (visitUpdates_renames hv next st h hroot ht.1.1.2 hcn (by omega)).bind ?_
    rintro u₁ st₁ ⟨h₁, hg₁, hu⟩
    refine (hv i st₁ h₁ ht.1.1.1.1 hci (by omega)).bind ?_
    rintro i' st₂ ⟨h₂, hg₂, hi⟩
    refine (hv v st₂ h₂ ht.1.1.1.2 hcv (by omega)).bind ?_
    rintro v' st₃ ⟨h₃, hg₃, hv'⟩
    have hi := hi.mono hg₃
    have hg₂₃ := hg₂.trans hg₃
    refine Ensures.pure ⟨h₃, hg₁.trans hg₂₃, ?_, hu.root, fun σ hσ j => ?_, ?_, ?_, ?_⟩
    · simp [UpdateList.extend, UpdateList.wellTyped, hi.wellTyped, hv'.wellTyped, hu.wellTyped,
        hi.getWidth, hv'.getWidth, ht.1.2, ht.2]
    · simp only [UpdateList.extend, UpdateList.evalRead, hi.eval σ hσ, hv'.eval σ hσ,
        hu.eval σ (hg₂₃.linked hσ)]
    · exact ((hereditary_over _).node i' v' u₁).mpr ⟨hi.isOver, hv'.isOver,
        fun a ha => hg₂₃.pool a (hu.isOver a ha)⟩
    · simp only [UpdateList.extend, UpdateList.Settled]
      exact ⟨hi.settled, hv'.settled, hu.settled⟩
    · have := hi.weight
      have := hv'.weight
      have := hu.weight
      simp only [UpdateList.extend, UpdateList.weight]
      omega

theorem changeRead_renames (hv : Renames cache depth visit) {u : UpdateList} {i : Expr}
    (h : st.Inv cache) (ht : (Expr.read u i).wellTyped = true) (hc : cache.Clean (.read u i))
    (hw : (Expr.read u i).weight < depth) :
    Ensures (· = .divideByZero) (changeRead cache visit u i) st fun e' st' =>
      st'.Inv cache ∧ Grows st st' ∧ Renamed cache st' (.read u i) e' := by
  simp only [Expr.wellTyped, Bool.and_eq_true, beq_iff_eq] at ht
  obtain ⟨hcu, hci⟩ := (cache.hereditary_clean.read u i).mp hc
  simp only [Expr.weight] at hw
  have hroot : u.array.isSymbolicArray = true → ¬ cache.IsCanonical u.array :=
    fun hsym => hcu _ (UpdateList.array_mem_symbolicRoots hsym)
  unfold changeRead
  refine (newRoot_spec h (u.wellTyped_array ht.1.1) hroot).bind ?_
  rintro array st₁ ⟨h₁, hg₁, hstands⟩
  refine (visitUpdates_renames hv u st₁ h₁ hstands ht.1.1 hcu (by omega)).bind ?_
  rintro u' st₂ ⟨h₂, hg₂, hu⟩
  refine (hv i st₂ h₂ ht.1.2 hci (by omega)).bind ?_
  rintro i' st₃ ⟨h₃, hg₃, hi⟩
  have ht' : (Expr.read u' i').wellTyped = true := by
    simp [Expr.wellTyped, hu.wellTyped, hi.wellTyped, hi.getWidth, ht.2]
  have ha := ReadExpr.create_agrees ht'
  refine Ensures.pure ⟨h₃, (hg₁.trans hg₂).trans hg₃, ha.wellTyped, ha.getWidth, fun σ hσ => ?_,
    ?_, settled_read_create hu.settled hi.settled, ?_⟩
  · rw [ha.eval σ]
    simp only [Expr.eval, hi.eval σ hσ, hu.eval σ (hg₃.linked hσ)]
  · exact (hereditary_over _).read_create (fun a ha => hg₃.pool a (hu.isOver a ha)) hi.isOver
  · refine (ReadExpr.weight_create u' i').trans ?_
    have := hu.weight
    have := hi.weight
    simp only [Expr.weight]
    omega

theorem mapM_renames (hv : Renames cache depth visit) : ∀ (ks : List Expr) (st : State),
    st.Inv cache → (∀ k ∈ ks, k.wellTyped = true ∧ cache.Clean k ∧ k.weight + 1 < depth) →
    Ensures (· = .divideByZero) (ks.mapM visit) st fun ks' st' =>
      st'.Inv cache ∧ Grows st st' ∧ List.Forall₂ (Renamed cache st') ks ks'
  | [], st, h, _ => Ensures.pure ⟨h, Grows.refl st, .nil⟩
  | k :: ks, st, h, hks => by
    obtain ⟨⟨ht, hc, hw⟩, hks⟩ := List.forall_mem_cons.mp hks
    rw [List.mapM_cons]
    refine (hv k st h ht hc hw).bind ?_
    rintro k' st₁ ⟨h₁, hg₁, hr⟩
    refine (mapM_renames hv ks st₁ h₁ hks).bind ?_
    rintro ks' st₂ ⟨h₂, hg₂, hrs⟩
    exact Ensures.pure ⟨h₂, hg₁.trans hg₂, .cons (hr.mono hg₂) hrs⟩

theorem visitActual_renames (hk : Keeps cache depth visit) (hv : Renames cache depth visit)
    (h : st.Inv cache) (ht : e.wellTyped = true) (hc : cache.Clean e) (hw : e.weight < depth) :
    Ensures (· = .divideByZero) (visitActual cache visit e) st fun e' st' =>
      st'.Inv cache ∧ Grows st st' ∧ Renamed cache st' e e' := by
  by_cases hread : ∃ u i, e = .read u i
  · obtain ⟨u, i, rfl⟩ := hread
    refine Ensures.get_bind ?_
    rw [if_neg (not_mem_pool_of_clean h hc)]
    exact changeRead_renames hv h ht hc hw
  · have hne : ∀ u i, e ≠ .read u i := fun u i heq => hread ⟨u, i, heq⟩
    rw [visitActual_kids hne]
    refine (mapM_renames hv e.kids st h fun k hmem => ⟨Expr.wellTyped_kids ht k hmem,
      (Expr.roots_kids hne _).mp hc k hmem, ?_⟩).bind ?_
    · have := Expr.weight_kids hmem
      omega
    · rintro ks st₁ ⟨h₁, hg₁, hrs⟩
      refine revisit_renames hk hg₁ h₁ hw (fun hsame => ?_) (fun e₁ he₁ => renamed_rebuild ht hne hrs he₁) ?_
      · exact renamed_of_kids ht hne (of_decide_eq_true hsame ▸ hrs)
      · exact Expr.onlyDivides_rebuild e ks

theorem lookup_renames (hk : Keeps cache depth visit) (hv : Renames cache depth visit) :
    Renames cache (depth + 1) fun e => lookup e (visitActual cache visit e) := by
  intro e st h ht hc hw
  by_cases hsame : e.Settled ∧ ∀ a ∈ e.symbolicRoots, cache.IsCanonical a
  · -- nothing to rename
    have hnone : e.Over st.canonicalArraySet := fun a ha => absurd (hsame.2 a ha) (hc a ha)
    have hkeep := lookup_keeps hk e st h ht hsame.1 hnone (by omega)
    refine (hkeep.weaken fun _ => False.elim).mono ?_
    rintro _ st' ⟨rfl, h', hq⟩
    exact ⟨h', hq.grows, renamed_self ht hsame.1 (hq.grows.isOver hnone)⟩
  · have hactual := visitActual_renames hk hv h ht hc (by omega)
    refine lookup_spec (fun _ => hactual) (fun e' hmem => ⟨h, Grows.refl st, h.visited _ hmem⟩)
      (hactual.mono ?_)
    rintro e' st' ⟨h', hg, hr⟩
    refine ⟨h'.remember hr fun hs hcan => absurd ⟨hs, hcan⟩ hsame, ⟨hg.index, hg.pool⟩, ?_⟩
    exact ⟨hr.wellTyped, hr.getWidth, hr.eval, hr.isOver, hr.settled, hr.weight⟩

end Renames

/-- A visit returns what stands for the expression, or meets a zero divisor. -/
theorem visit_renames : ∀ depth, Renames cache depth (visit cache depth)
  | 0 => fun _ _ _ _ _ hw => absurd hw (Nat.not_lt_zero _)
  | depth + 1 => lookup_renames (visit_keeps depth) (visit_renames depth)

theorem visitQuery_renames (h : st.Inv cache) (ht : e.wellTyped = true) (hc : cache.Clean e) :
    Ensures (· = .divideByZero) (visitQuery cache e) st fun e' st' =>
      st'.Inv cache ∧ Grows st st' ∧ Renamed cache st' e e' :=
  visit_renames _ e st h ht hc (Nat.lt_succ_self _)

theorem renames_visitQuery (depth : ℕ) : Renames cache depth (visitQuery cache) :=
  fun _ _ h ht hc _ => visitQuery_renames h ht hc

/-- The constraints in turn. -/
theorem mapM_visitQuery_renames {cs : List Expr} (h : st.Inv cache)
    (hcs : ∀ c ∈ cs, c.wellTyped = true ∧ cache.Clean c) :
    Ensures (· = .divideByZero) (cs.mapM (visitQuery cache)) st fun cs' st' =>
      st'.Inv cache ∧ Grows st st' ∧ List.Forall₂ (Renamed cache st') cs cs' := by
  obtain ⟨depth, hdepth⟩ := exists_forall_lt (·.weight + 1) cs
  exact mapM_renames (renames_visitQuery depth) cs st h
    fun c hc => ⟨(hcs c hc).1, (hcs c hc).2, hdepth c hc⟩

/-- One renaming stands behind the expression and the constraints. -/
theorem canonicalizeWith_renames {cs : List Expr} (h : st.Inv cache) (ht : e.wellTyped = true)
    (hc : cache.Clean e) (hcs : ∀ c ∈ cs, c.wellTyped = true ∧ cache.Clean c) :
    Ensures (· = .divideByZero) (canonicalizeWith cache e cs) st fun q st' =>
      st'.Inv cache ∧ Grows st st' ∧ Renamed cache st' e q.1 ∧
        List.Forall₂ (Renamed cache st') cs q.2 := by
  refine (visitQuery_renames h ht hc).bind ?_
  rintro e' st₁ ⟨h₁, hg₁, hr⟩
  refine (mapM_visitQuery_renames h₁ hcs).bind ?_
  rintro cs' st₂ ⟨h₂, hg₂, hrs⟩
  exact Ensures.pure ⟨h₂, hg₁.trans hg₂, hr.mono hg₂, hrs⟩

/-! ### Values -/

open Classical in
/-- The canonical arrays take the contents of the arrays they stand for. -/
noncomputable def toCanonical (cache : ArrayCache) (st : State) (σ : Assignment) : Assignment :=
  fun c => if h : ∃ a, ∃ i, st.arrayIndexMap a = some i ∧ c = cache.canonicalArray a.size i
    then σ h.choose else σ c

/-- The arrays take the contents of the canonical arrays that stand for them. -/
def ofCanonical (cache : ArrayCache) (st : State) (σ : Assignment) : Assignment :=
  fun a => match st.arrayIndexMap a with
    | some i => σ (cache.canonicalArray a.size i)
    | none => σ a

theorem toCanonical_of_clean {a : KleeArray} (ha : ¬ cache.IsCanonical a) (σ : Assignment) :
    toCanonical cache st σ a = σ a := by
  unfold toCanonical
  exact dif_neg fun ⟨b, i, _, heq⟩ => ha ⟨b.size, i, heq⟩

theorem linked_toCanonical (h : st.Inv cache) (σ : Assignment) :
    Linked cache (toCanonical cache st σ) st := by
  intro a i ha
  rw [toCanonical_of_clean (h.clean a i ha)]
  have hex : ∃ b, ∃ j, st.arrayIndexMap b = some j ∧
      cache.canonicalArray a.size i = cache.canonicalArray b.size j := ⟨a, i, ha, rfl⟩
  obtain ⟨j, hj, heq⟩ := hex.choose_spec
  obtain ⟨hsz, rfl⟩ := cache.canonicalArray_inj heq
  rw [toCanonical, dif_pos hex]
  exact congrArg σ (h.injective _ _ _ hsz ha hj).symm

theorem ofCanonical_of_pool (h : st.Inv cache) {a : KleeArray} (ha : a ∈ st.canonicalArraySet)
    (σ : Assignment) : ofCanonical cache st σ a = σ a := by
  unfold ofCanonical
  split
  next i hi => exact absurd (h.isCanonical ha) (h.clean a i hi)
  next => rfl

theorem linked_ofCanonical (h : st.Inv cache) (σ : Assignment)
    (hused : ∀ a i, st.arrayIndexMap a = some i →
      cache.canonicalArray a.size i ∈ st.canonicalArraySet) :
    Linked cache (ofCanonical cache st σ) st := by
  intro a i ha
  rw [ofCanonical_of_pool h (hused a i ha), ofCanonical, ha]

theorem State.Inv.used (h : st.Inv cache) {a : KleeArray} {i : ℕ} (ha : st.arrayIndexMap a = some i) :
    cache.canonicalArray a.size i ∈ st.canonicalArraySet := by
  have hlt : i < (st.canonicalArrayMap a.size).length :=
    lt_of_lt_of_le (h.index_lt a i ha) (h.lru a.size)
  rw [h.mem_pool, cache.size_canonicalArray]
  rw [← h.pool _ _ _ (List.getElem?_eq_getElem hlt)]
  exact List.getElem_mem hlt

theorem inv_start {pool : ℕ → List KleeArray} {set : List KleeArray}
    (hpool : ∀ sz i a, (pool sz)[i]? = some a → a = cache.canonicalArray sz i)
    (hset : ∀ a, a ∈ set ↔ a ∈ pool a.size) : (State.start pool set).Inv cache where
  pool := hpool
  mem_pool := hset
  lru _ := Nat.zero_le _
  index_lt _ _ h := by cases h
  injective _ _ _ _ h := by cases h
  clean _ _ h := by cases h
  visited _ h := by cases h
  unchanged _ h := by cases h

section Values

variable {cs cs' : List Expr}

theorem satisfies_renamed {σ : Assignment} (hσ : Linked cache σ st)
    (h : List.Forall₂ (Renamed cache st) cs cs') : Satisfies σ cs' ↔ Satisfies σ cs := by
  induction h with
  | nil => exact Iff.rfl
  | cons hr _ ih => rw [satisfies_cons, satisfies_cons, ih, Holds, Holds, hr.eval σ hσ]

theorem satisfies_congr {σ τ : Assignment} (h : ∀ c ∈ cs, ∀ a ∈ c.symbolicRoots, σ a = τ a) :
    Satisfies σ cs ↔ Satisfies τ cs :=
  forall₂_congr fun c hc => Holds.congr (h c hc)

theorem over_of_renamed (h : List.Forall₂ (Renamed cache st) cs cs') :
    ∀ c ∈ cs', c.Over st.canonicalArraySet := by
  induction h with
  | nil => exact fun c hc => by cases hc
  | cons hr _ ih => exact List.forall_mem_cons.mpr ⟨hr.isOver, ih⟩

/-- A query and its canonical form have the same values. -/
theorem canBe_renamed (h : st.Inv cache) (hc : cache.Clean e) (hcs : ∀ c ∈ cs, cache.Clean c)
    (he : Renamed cache st e e') (hrs : List.Forall₂ (Renamed cache st) cs cs') (v : APInt) :
    CanBe cs' e' v ↔ CanBe cs e v := by
  constructor
  · rintro ⟨σ, hσ, rfl⟩
    have hlink : Linked cache (ofCanonical cache st σ) st := linked_ofCanonical h σ fun a i => h.used
    refine ⟨ofCanonical cache st σ, (satisfies_renamed hlink hrs).mp ?_, ?_⟩
    · exact (satisfies_congr fun c hmem a ha =>
        ofCanonical_of_pool h (over_of_renamed hrs c hmem a ha) σ).mpr hσ
    · rw [← he.eval _ hlink]
      exact e'.eval_congr fun a ha => ofCanonical_of_pool h (he.isOver a ha) σ
  · rintro ⟨σ, hσ, rfl⟩
    have hlink := linked_toCanonical h σ
    refine ⟨toCanonical cache st σ, (satisfies_renamed hlink hrs).mpr ?_, ?_⟩
    · exact (satisfies_congr fun c hmem a ha => toCanonical_of_clean (hcs c hmem a ha) σ).mpr hσ
    · rw [he.eval _ hlink]
      exact e.eval_congr fun a ha => toCanonical_of_clean (hc a ha) σ

end Values

end CanonicalVisitor

open CanonicalVisitor in
/-- `canonicalize` returns a query of the same values, or meets a zero divisor. -/
theorem canonicalize_spec {cache : ArrayCache} {e : Expr} {cs : List Expr}
    (ht : e.wellTyped = true) (hc : cache.Clean e)
    (hcs : ∀ c ∈ cs, c.wellTyped = true ∧ cache.Clean c) :
    (∃ e' cs', canonicalize cache e cs = .ok (e', cs') ∧ e'.wellTyped = true ∧
      e'.getWidth = e.getWidth ∧ ∀ v, CanBe cs' e' v ↔ CanBe cs e v) ∨
    canonicalize cache e cs = .error .divideByZero := by
  have hinv : (State.start (fun _ => []) []).Inv cache :=
    inv_start (fun _ _ _ h => by simp at h) fun _ => by simp
  have hspec := canonicalizeWith_renames hinv ht hc hcs
  unfold Ensures at hspec
  unfold canonicalize
  split at hspec
  next q st hq =>
    obtain ⟨h, -, he, hrs⟩ := hspec
    refine .inl ⟨q.1, q.2, by rw [hq]; rfl, he.wellTyped, he.getWidth, ?_⟩
    exact canBe_renamed h hc (fun c hmem => (hcs c hmem).2) he hrs
  next err herr =>
    rw [herr, hspec]
    exact .inr rfl

end TaseVerifier
