import Mathlib.SetTheory.Cardinal.Order
import TaseVerifier.Solver.CexCaching

/-! The cache of counterexamples is transparent: every entry is true of its set, so every
answer is right for its own query, whichever queries came before. -/

namespace TaseVerifier

open Library MapOfSets

theorem ExprOrder.mem_insert (ord : ExprOrder) {e x : Expr} {xs : List Expr} :
    x ∈ ord.insert e xs ↔ x = e ∨ x ∈ xs := by
  induction xs with
  | nil => simp [ExprOrder.insert]
  | cons y ys ih =>
    unfold ExprOrder.insert
    split_ifs with h₁ h₂
    · simp
    · simp only [List.mem_cons, ih]
      tauto
    · obtain rfl : e = y := ord.eq_of_not_lt e y (by simpa using h₁) (by simpa using h₂)
      simp

theorem ExprOrder.mem_foldl_insert (ord : ExprOrder) {x : Expr} (es key : List Expr) :
    x ∈ es.foldl (fun key e => ord.insert e key) key ↔ x ∈ key ∨ x ∈ es := by
  induction es generalizing key with
  | nil => simp
  | cons e es ih =>
    rw [List.foldl_cons, ih, ord.mem_insert, List.mem_cons]
    tauto

mutual
theorem Expr.isSymbolicArray_of_mem {a : KleeArray} : ∀ e : Expr, a ∈ e.symbolicRoots →
    a.isSymbolicArray = true
  | .constant _, h => by cases h
  | .notOptimized s, h => s.isSymbolicArray_of_mem h
  | .read u i, h => (List.mem_append.mp h).elim u.isSymbolicArray_of_mem i.isSymbolicArray_of_mem
  | .select c t f, h => (List.mem_append.mp h).elim
      (fun h => (List.mem_append.mp h).elim c.isSymbolicArray_of_mem t.isSymbolicArray_of_mem)
      f.isSymbolicArray_of_mem
  | .concat l r, h => (List.mem_append.mp h).elim l.isSymbolicArray_of_mem r.isSymbolicArray_of_mem
  | .extract e _ _, h => e.isSymbolicArray_of_mem h
  | .not e, h => e.isSymbolicArray_of_mem h
  | .cast _ e _, h => e.isSymbolicArray_of_mem h
  | .binary _ l r, h =>
    (List.mem_append.mp h).elim l.isSymbolicArray_of_mem r.isSymbolicArray_of_mem
theorem UpdateList.isSymbolicArray_of_mem {a : KleeArray} : ∀ u : UpdateList,
    a ∈ u.symbolicRoots → a.isSymbolicArray = true
  | .root b, h => by
    simp only [UpdateList.symbolicRoots] at h
    split_ifs at h with hb
    · obtain rfl := List.mem_singleton.mp h
      exact hb
    · cases h
  | .node i v next, h => (List.mem_append.mp h).elim
      (fun h => (List.mem_append.mp h).elim i.isSymbolicArray_of_mem v.isSymbolicArray_of_mem)
      next.isSymbolicArray_of_mem
end

namespace Bindings

variable {a b : Bindings}

/-- The bindings read from an assignment. -/
theorem find_ofValues (σ : Assignment) (objects : List KleeArray) (os : KleeArray) :
    (ofValues objects (objects.map fun a => (List.range a.size).map (σ a))).find os =
      if os ∈ objects then some ((List.range os.size).map (σ os)) else none := by
  unfold ofValues find
  induction objects with
  | nil => rfl
  | cons o objects ih =>
    simp only [List.map_cons, List.zip_cons_cons, List.lookup_cons, List.mem_cons]
    by_cases h : os = o
    · subst h
      simp
    · have hne : (os == o) = false := by simpa using h
      rw [hne, ih]
      simp [h]

theorem toAssignment_ofValues (σ : Assignment) {objects : List KleeArray} {os : KleeArray}
    (h : os ∈ objects) {i : ℕ} (hi : i < os.size) :
    (ofValues objects (objects.map fun a => (List.range a.size).map (σ a))).toAssignment os i =
      σ os i := by
  simp [toAssignment, find_ofValues, h, hi]

theorem fits_ofValues (σ : Assignment) {objects : List KleeArray}
    (h : ∀ a ∈ objects, a.isSymbolicArray = true) :
    (ofValues objects (objects.map fun a => (List.range a.size).map (σ a))).Fits := by
  intro os values hf
  rw [find_ofValues] at hf
  split_ifs at hf with hos
  cases hf
  exact ⟨h os hos, by simp⟩

theorem mem_of_find {os : KleeArray} {values : List (BitVec 8)} (h : a.find os = some values) :
    ∃ p ∈ a.entries, p.1 = os := by
  obtain ⟨xs, ys, hxs, -⟩ := List.lookup_eq_some_iff.mp h
  exact ⟨(os, values), by simp [hxs], rfl⟩

theorem find_eq_of_same (h : a.same b = true) (os : KleeArray) : b.find os = a.find os := by
  simp only [same, Bool.and_eq_true, List.all_eq_true, beq_iff_eq] at h
  cases ha : a.find os with
  | some values =>
    obtain ⟨p, hp, rfl⟩ := mem_of_find ha
    exact (h.1 p hp).trans ha
  | none =>
    cases hb : b.find os with
    | none => rfl
    | some values =>
      obtain ⟨p, hp, rfl⟩ := mem_of_find hb
      rw [← hb, ← h.2 p hp, ha]

theorem toAssignment_eq_of_same (h : a.same b = true) : b.toAssignment = a.toAssignment := by
  funext os i
  rw [toAssignment, toAssignment, find_eq_of_same h]

end Bindings

theorem nodeWise_evaluable : NodeWise fun e => e.evaluable = true where
  constant _ := rfl
  select _ _ _ := by simp [Expr.evaluable, and_assoc]
  concat _ _ := by simp [Expr.evaluable]
  extract _ _ _ := by simp [Expr.evaluable]
  not _ := by simp [Expr.evaluable]
  cast _ _ _ := by simp [Expr.evaluable]
  binary _ _ _ hk := by simp [Expr.evaluable, hk]

/-- All expressions of the query fold under every assignment. -/
def Query.Evaluable (q : Query) : Prop :=
  (∀ c ∈ q.constraints, c.evaluable = true) ∧ q.expr.evaluable = true

namespace CexCachingSolver

/-! ### Keys -/

section Key

variable {ord : ExprOrder} {q : Query} {key : List Expr}

theorem mem_keyOf (h : keyOf ord q = some key) {e : Expr} (he : e ∈ key) :
    e ∈ q.constraints ∨ e = q.expr.createIsZero := by
  unfold keyOf at h
  simp only at h
  split at h
  · split_ifs at h
    cases h
    exact .inl (by simpa [ord.mem_foldl_insert] using he)
  · cases h
    rcases ord.mem_insert.mp he with rfl | he
    · exact .inr rfl
    · exact .inl (by simpa [ord.mem_foldl_insert] using he)

/-- The solutions of the key are the counterexamples of the query. -/
theorem satisfies_keyOf (hq : q.IsBool) (h : keyOf ord q = some key) (σ : Assignment) :
    Satisfies σ key ↔ q.Refutes σ := by
  rw [Query.Refutes, ← holds_createIsZero hq.expr]
  have hmem : ∀ e, e ∈ q.constraints.foldl (fun key e => ord.insert e key) [] ↔
      e ∈ q.constraints := by
    simp [ord.mem_foldl_insert]
  unfold keyOf at h
  simp only at h
  split at h
  next c hc =>
    split_ifs at h with hfalse
    cases h
    have htrue : Holds σ q.expr.createIsZero := by
      obtain ⟨-, hw⟩ := isBool_iff.mp (Expr.isBool_createIsZero hq.expr)
      rw [hc] at hw ⊢
      rcases c.bool_cases hw with rfl | rfl
      · exact APInt.isTrue_ofBool true
      · exact absurd rfl hfalse
    simp [Satisfies, hmem, htrue]
  next =>
    cases h
    simp only [Satisfies, ord.mem_insert, hmem]
    constructor
    · exact fun hall => ⟨fun c hc => hall c (.inr hc), hall _ (.inl rfl)⟩
    · rintro ⟨hcs, hneg⟩ e (rfl | he)
      · exact hneg
      · exact hcs e he

theorem valid_of_keyOf (hq : q.IsBool) (h : keyOf ord q = none) : q.Valid := by
  intro σ _
  unfold keyOf at h
  simp only at h
  split at h
  next c hc =>
    split_ifs at h with hfalse
    refine not_not.mp fun hn => ?_
    have hneg := (holds_createIsZero hq.expr σ).mpr hn
    rw [hc, Holds, Expr.eval_constant] at hneg
    simp only [APInt.isFalse, APInt.isTrue, Bool.and_eq_true, bne_iff_ne, beq_iff_eq] at hfalse hneg
    exact hneg.2 hfalse.2
  next => cases h

theorem isBool_of_mem_keyOf (hq : q.IsBool) (h : keyOf ord q = some key) {e : Expr}
    (he : e ∈ key) : e.isBool = true := by
  rcases mem_keyOf h he with he | rfl
  · exact hq.constraints e he
  · exact Expr.isBool_createIsZero hq.expr

theorem evaluable_of_mem_keyOf (hq : q.Evaluable) (h : keyOf ord q = some key) {e : Expr}
    (he : e ∈ key) : e.evaluable = true := by
  rcases mem_keyOf h he with he | rfl
  · exact hq.1 e he
  · exact nodeWise_evaluable.createIsZero hq.2

theorem mem_findObjects {key : List Expr} {a : KleeArray} :
    a ∈ findObjects key ↔ ∃ e ∈ key, a ∈ e.symbolicRoots := by
  simp [findObjects, mem_foldl_insertObject]

end Key

/-! ### The entries -/

/-- What an entry states about its set. -/
def Entry (set : List Expr) : Option Bindings → Prop
  | none => ∀ σ, ¬ Satisfies σ set
  | some b => b.Fits ∧ Satisfies b.toAssignment set

/-- Every entry is true, and the table holds bindings of whole arrays. -/
structure Inv {S : Type} (st : State S) : Prop where
  cache : ∀ set r, st.cache.Stores set r → Entry set r
  table : ∀ b ∈ st.assignmentsTable, b.Fits

/-- The errors that may stop a call. Under `P` there is none. -/
def Admits (P : Prop) : Stop → Prop
  | .mustHaveAssignment => False
  | _ => ¬ P

section Search

variable {S : Type} {opts : Options} {ord : ExprOrder} {st : State S} {key : List Expr} {P : Prop}
  {b : Bindings}

theorem evaluate_constant {e e' : Expr} (he : e.evaluable = true) (h : evaluate b e = .ok e') :
    e'.isConstant = true := by
  obtain ⟨c, hc⟩ := ExprEvaluator.folds_visit (b := b) e he
  rw [evaluate, hc] at h
  cases h
  rfl

theorem evaluate_stops {e : Expr} {err : Stop} (hP : P → e.evaluable = true)
    (h : evaluate b e = .error err) : Admits P err := by
  unfold evaluate at h
  cases hv : ExprEvaluator.visit b e with
  | ok e' =>
    rw [hv] at h
    cases h
  | error a =>
    rw [hv] at h
    cases h
    intro hp
    obtain ⟨c, hc⟩ := ExprEvaluator.folds_visit (b := b) e (hP hp)
    rw [hv] at hc
    cases hc

theorem evaluate_agrees (hb : b.Fits) {e e' : Expr} (he : e.wellTyped = true)
    (h : evaluate b e = .ok e') : AgreesOn (· = b.toAssignment) e e' := by
  unfold evaluate at h
  cases hv : ExprEvaluator.visit b e with
  | ok e₁ =>
    rw [hv] at h
    cases h
    exact ExprEvaluator.visit_agrees hb e he hv
  | error a =>
    rw [hv] at h
    cases h

open ExprReplaceVisitor (bind_eq_ok)

theorem satisfies_sound (hb : b.Fits) (hkey : ∀ e ∈ key, e.isBool = true)
    (h : satisfies b key = .ok true) : Satisfies b.toAssignment key := by
  induction key with
  | nil => exact satisfies_nil _
  | cons e key ih =>
    obtain ⟨ht, -⟩ := isBool_iff.mp (hkey e List.mem_cons_self)
    obtain ⟨e', he', h⟩ := bind_eq_ok.mp h
    split_ifs at h with htrue
    · have hholds : Holds b.toAssignment e := by
        rw [Holds, ← (evaluate_agrees hb ht he').eval _ rfl]
        cases e' with
        | constant c => exact htrue
        | _ => cases htrue
      exact (satisfies_cons _ _ _).mpr
        ⟨hholds, ih (fun e he => hkey e (List.mem_cons_of_mem _ he)) h⟩
    · cases h

theorem satisfies_stops {err : Stop} (hP : P → ∀ e ∈ key, e.evaluable = true)
    (h : satisfies b key = .error err) : Admits P err := by
  induction key with
  | nil => cases h
  | cons e key ih =>
    unfold satisfies at h
    cases hv : evaluate b e with
    | error err' =>
      rw [hv] at h
      cases h
      exact evaluate_stops (fun hp => hP hp e List.mem_cons_self) hv
    | ok e' =>
      rw [hv] at h
      simp only [bind, Except.bind] at h
      split_ifs at h
      · exact ih (fun hp e he => hP hp e (List.mem_cons_of_mem _ he)) h
      · cases h

theorem Entry.of_superset {set : List Expr} (h : Entry set (some b)) (hsub : key ⊆ set) :
    Entry key (some b) :=
  ⟨h.1, fun c hc => h.2 c (hsub hc)⟩

theorem Entry.of_subset {set : List Expr} (h : Entry set none) (hsub : set ⊆ key) :
    Entry key none :=
  fun σ hσ => h σ fun c hc => hσ c (hsub hc)

variable (hst : Inv st) (hkey : ∀ e ∈ key, e.isBool = true)
  (hP : P → ∀ e ∈ key, e.evaluable = true)

include hkey hP in
theorem finds_searchTable {table : List Bindings} (htable : ∀ b ∈ table, b.Fits) :
    Finds (Admits P) (searchTable key table) (Entry key) := by
  induction table with
  | nil => exact trivial
  | cons b table ih =>
    unfold searchTable
    cases hs : satisfies b key with
    | error err => exact satisfies_stops hP hs
    | ok found =>
      cases found with
      | true =>
        have hb := htable b List.mem_cons_self
        exact ⟨hb, satisfies_sound hb hkey hs⟩
      | false => exact ih fun b hb => htable b (List.mem_cons_of_mem _ hb)

include hst in
theorem finds_searchSuperset : Finds (Admits P) (searchSuperset opts ord key st) (Entry key) := by
  unfold searchSuperset
  split_ifs
  · refine (Node.finds_superset (fun v err h => by cases h) key st.cache).mono fun r hr => ?_
    obtain ⟨set, hs, hsub, hsome⟩ := hr
    cases r with
    | none => cases hsome
    | some b => exact (hst.cache set _ hs).of_superset hsub
  · exact trivial

include hst hkey hP in
theorem finds_searchSubset : Finds (Admits P) (searchSubset opts ord key st) (Entry key) := by
  unfold searchSubset
  split_ifs
  · refine .firstOf ?_ (finds_searchTable hkey hP hst.table)
    refine (Node.finds_subset (fun v err h => by cases h) key st.cache).mono fun r hr => ?_
    obtain ⟨set, hs, hsub, hnone⟩ := hr
    cases r with
    | none => exact (hst.cache set _ hs).of_subset hsub
    | some b => cases hnone
  · have hstops : StopsBy (Admits P) (nullOrSatisfyingAssignment key) := by
      intro v err h
      cases v with
      | none => cases h
      | some b => exact satisfies_stops hP h
    refine (Node.finds_subset hstops key st.cache).mono fun r hr => ?_
    obtain ⟨set, hs, hsub, hok⟩ := hr
    have hentry := hst.cache set _ hs
    cases r with
    | none => exact hentry.of_subset hsub
    | some b => exact ⟨hentry.1, satisfies_sound hentry.1 hkey hok⟩

include hst hkey hP in
/-- What the search finds is true of the key. -/
theorem finds_searchForAssignment :
    Finds (Admits P) (searchForAssignment opts ord key st) (Entry key) := by
  refine .firstOf ?_ (.firstOf (finds_searchSuperset hst) (finds_searchSubset hst hkey hP))
  cases hl : st.cache.lookup key with
  | none => exact trivial
  | some r => exact hst.cache key r (Node.stores_of_lookup key st.cache hl)

end Search

/-! ### Calls -/

section Calls

variable {S : Type} {impl : SolverImpl S} {opts : Options} {ord : ExprOrder}
  {before : Bindings → Bindings → Bool} {st : State S} {q : Query} {P : Prop}

/-- A solution is a counterexample of the query; without one the query is valid. -/
def Solved (q : Query) : Option Bindings → Prop
  | none => q.Valid
  | some b => b.Fits ∧ q.Refutes b.toAssignment

/-- An answer meets `Q`, and there is one unless the layer below failed. -/
def Answers {α : Type} (impl : SolverImpl S) (Q : α → Prop) (r : Option α) : Prop :=
  (∀ a, r = some a → Q a) ∧ (impl.Responds → r.isSome = true)

theorem answers_some {α : Type} {Q : α → Prop} {a : α} (h : Q a) : Answers impl Q (some a) :=
  ⟨fun _ ha => Option.some.inj ha ▸ h, fun _ => rfl⟩

/-- A failure is passed on. -/
theorem Answers.none {α β : Type} {Q : α → Prop} {R : β → Prop}
    (h : Answers impl Q (none : Option α)) : Answers impl R (none : Option β) :=
  ⟨nofun, h.2⟩

/-- The bytes of a counterexample, or that there is none. -/
def Initial (q : Query) (objects : List KleeArray) : Option (List (List (BitVec 8))) → Prop
  | none => q.Valid
  | some values => ∃ σ, q.Refutes σ ∧
      values = objects.map fun a => (List.range a.size).map (σ a)

/-- What the layer below answers. -/
theorem computeInitialValues_answers (hs : impl.Solves) (hq : q.IsBool) (objects : List KleeArray)
    (s : S) : Answers impl (Initial q objects) (impl.computeInitialValues q objects s).1 := by
  refine ⟨fun r hr => ?_, fun hresp => hresp q objects s hq⟩
  cases r with
  | none => exact hs.noSolution q objects s hq hr
  | some values => exact hs.solution q objects s values hq hr

theorem solved_of_entry (hq : q.IsBool) {key : List Expr} (hkey : keyOf ord q = some key)
    {r : Option Bindings} (h : Entry key r) : Solved q r := by
  have hiff := satisfies_keyOf hq hkey
  cases r with
  | none =>
    refine not_not.mp fun hv => ?_
    obtain ⟨σ, hσ⟩ := q.not_valid_iff.mp hv
    exact h σ ((hiff σ).mpr hσ)
  | some b => exact ⟨h.1, (hiff _).mp h.2⟩

theorem Inv.insert (h : Inv st) {key : List Expr} {r : Option Bindings} (hr : Entry key r) :
    Inv (st.insert ord key r) := by
  refine ⟨fun set r' hs => ?_, h.table⟩
  rcases Node.stores_insert key st.cache hs with ⟨rfl, rfl⟩ | hs
  · exact hr
  · exact h.cache set r' hs

theorem memoize_ensures (h : Inv st) {b : Bindings} (hb : b.Fits) :
    Ensures (Admits P) (memoize before b) st
      (fun b' st' => Inv st' ∧ b'.Fits ∧ b'.toAssignment = b.toAssignment) := by
  unfold Ensures memoize
  cases hf : st.assignmentsTable.find? (b.same ·) with
  | some b' =>
    have hmem := h.table b' (List.mem_of_find?_eq_some hf)
    exact ⟨h, hmem, Bindings.toAssignment_eq_of_same (List.find?_some hf)⟩
  | none =>
    refine ⟨⟨h.cache, fun b' hb' => ?_⟩, hb, rfl⟩
    rcases (List.mem_orderedInsert _).mp hb' with rfl | hb'
    · exact hb
    · exact h.table b' hb'

theorem call_ensures (h : Inv st) {α : Type} {x : StateM S α} {Q : α → Prop}
    (hx : ∀ s, Q (x s).1) : Ensures (Admits P) (call x) st (fun r st' => Inv st' ∧ Q r) := by
  refine ⟨⟨h.cache, h.table⟩, hx st.solver⟩

/-- The bindings of a counterexample solve the key. -/
theorem entry_ofValues {key : List Expr} {σ : Assignment} (h : Satisfies σ key) :
    Entry key (some (Bindings.ofValues (findObjects key)
      ((findObjects key).map fun a => (List.range a.size).map (σ a)))) := by
  refine ⟨Bindings.fits_ofValues σ fun a ha => ?_, fun e he => ?_⟩
  · obtain ⟨e, -, hae⟩ := mem_findObjects.mp ha
    exact e.isSymbolicArray_of_mem hae
  · rw [Holds, e.eval_congr_bytes fun a ha i hi =>
      Bindings.toAssignment_ofValues σ (mem_findObjects.mpr ⟨e, he, ha⟩) hi]
    exact h e he

theorem solveAssignment_ensures (hs : impl.Solves) (h : Inv st) (hq : q.IsBool) {key : List Expr}
    (hkey : keyOf ord q = some key) :
    Ensures (Admits P) (solveAssignment impl ord before q key) st
      (fun r st' => Inv st' ∧ Answers impl (Solved q) r) := by
  have hiff := satisfies_keyOf hq hkey
  refine (call_ensures h (computeInitialValues_answers hs hq (findObjects key))).bind ?_
  rintro (_ | _ | values) st' ⟨hst, hr⟩
  · exact Ensures.pure ⟨hst, hr.none⟩
  · have hvalid : q.Valid := hr.1 none rfl
    have hentry : Entry key none := fun σ hσ => ((hiff σ).mp hσ).2 (hvalid σ ((hiff σ).mp hσ).1)
    refine (Ensures.modify (Q := fun _ => Inv) (hst.insert hentry)).bind fun _ st'' h'' => ?_
    exact Ensures.pure ⟨h'', answers_some hvalid⟩
  · obtain ⟨σ, hσ, rfl⟩ := hr.1 (some values) rfl
    have hentry := entry_ofValues ((hiff σ).mpr hσ)
    refine (memoize_ensures hst hentry.1).bind fun b st₁ ⟨h₁, hb, hbσ⟩ => ?_
    have hentry' : Entry key (some b) := ⟨hb, by rw [hbσ]; exact hentry.2⟩
    refine (Ensures.modify (Q := fun _ => Inv) (h₁.insert hentry')).bind fun _ st₂ h₂ => ?_
    exact Ensures.pure ⟨h₂, answers_some (solved_of_entry hq hkey hentry')⟩

theorem getAssignment_ensures (hs : impl.Solves) (h : Inv st) (hq : q.IsBool)
    (hP : P → q.Evaluable) :
    Ensures (Admits P) (getAssignment impl opts ord before q) st
      (fun r st' => Inv st' ∧ Answers impl (Solved q) r) := by
  unfold getAssignment
  split
  next hkey => exact Ensures.pure ⟨h, answers_some (valid_of_keyOf hq hkey)⟩
  next key hkey =>
    refine Ensures.get_bind ?_
    have hfind : Finds (Admits P) (searchForAssignment opts ord key st) (Entry key) :=
      finds_searchForAssignment h (fun e he => isBool_of_mem_keyOf hq hkey he)
        fun hp e he => evaluable_of_mem_keyOf (hP hp) hkey he
    cases hr : searchForAssignment opts ord key st with
    | error err =>
      rw [hr] at hfind
      exact hfind
    | ok found =>
      rw [hr] at hfind
      cases found with
      | none => exact solveAssignment_ensures hs h hq hkey
      | some r => exact Ensures.pure ⟨h, answers_some (solved_of_entry hq hkey hfind)⟩

theorem computeTruth_ensures (hs : impl.Solves) (h : Inv st) (hq : q.IsBool)
    (hP : P → q.Evaluable) :
    Ensures (Admits P) (computeTruth impl opts ord before q) st
      (fun r st' => Inv st' ∧ Answers impl (fun b => b = true ↔ q.Valid) r) := by
  refine (getAssignment_ensures hs h hq hP).bind ?_
  rintro (_ | _ | b) st' ⟨hst, hr⟩
  · exact Ensures.pure ⟨hst, hr.none⟩
  · exact Ensures.pure ⟨hst, answers_some ⟨fun _ => hr.1 _ rfl, fun _ => rfl⟩⟩
  · have hno : ¬ q.Valid := q.not_valid_iff.mpr ⟨_, (hr.1 _ rfl).2⟩
    exact Ensures.pure ⟨hst, answers_some ⟨nofun, fun hv => (hno hv).elim⟩⟩

theorem isBool_withFalse (hcs : ∀ c ∈ q.constraints, c.isBool = true) : q.withFalse.IsBool :=
  ⟨hcs, rfl⟩

/-- The solution of the constraints exists when they can be met. -/
theorem anySolution_ensures (hs : impl.Solves) (h : Inv st)
    (hcs : ∀ c ∈ q.constraints, c.isBool = true) (hsat : Satisfiable q.constraints)
    (hP : P → q.Evaluable) :
    Ensures (Admits P) (anySolution impl opts ord before q) st
      (fun r st' => Inv st' ∧
        Answers impl (fun b => b.Fits ∧ Satisfies b.toAssignment q.constraints) r) := by
  refine (getAssignment_ensures hs h (isBool_withFalse hcs) fun hp => ⟨(hP hp).1, rfl⟩).bind ?_
  rintro (_ | _ | b) st' ⟨hst, hr⟩
  · exact Ensures.pure ⟨hst, hr.none⟩
  · obtain ⟨σ, hσ⟩ := hsat
    have hvalid : q.withFalse.Valid := hr.1 _ rfl
    exact absurd (hvalid σ hσ) (by simp [Query.withFalse, Holds, Expr.eval_alloc]; decide)
  · have hb : b.Fits ∧ q.withFalse.Refutes b.toAssignment := hr.1 _ rfl
    exact Ensures.pure ⟨hst, answers_some ⟨hb.1, hb.2.1⟩⟩

theorem constantValue_ensures (h : Inv st) {b : Bindings} (hb : b.Fits) {e : Expr}
    (he : e.wellTyped = true) (hP : P → e.evaluable = true) :
    Ensures (Admits P) (constantValue b e) st
      (fun value st' => Inv st' ∧ value = e.eval b.toAssignment) := by
  unfold constantValue
  cases hv : evaluate b e with
  | error err => exact evaluate_stops hP hv
  | ok e' =>
    have ha := evaluate_agrees hb he hv
    have hc : P → e'.isConstant = true := fun hp => evaluate_constant (hP hp) hv
    cases e' with
    | constant c => exact ⟨h, ha.eval _ rfl⟩
    | _ => exact fun hp => by cases hc hp

theorem settle_ensures (hs : impl.Solves) (h : Inv st) (hq : q.IsBool) (hP : P → q.Evaluable)
    {b : Bindings} (hb : Satisfies b.toAssignment q.constraints) :
    Ensures (Admits P) (settle impl opts ord before (q.expr.eval b.toAssignment) q) st
      (fun r st' => Inv st' ∧ Answers impl (· = validity q.constraints q.expr) r) := by
  have hneg := holds_createIsZero hq.expr
  unfold settle
  split_ifs with htrue
  · refine (computeTruth_ensures hs h hq hP).bind ?_
    rintro (_ | valid) st' ⟨hst, hr⟩
    · exact Ensures.pure ⟨hst, hr.none⟩
    · have hv := hr.1 valid rfl
      cases valid with
      | true => exact Ensures.pure ⟨hst, answers_some (if_pos (hv.mp rfl)).symm⟩
      | false =>
        obtain ⟨σ, hσ, hσe⟩ := q.not_valid_iff.mp fun h => by simpa using hv.mpr h
        exact Ensures.pure ⟨hst, answers_some (validity_eq_unknown hb htrue hσ hσe).symm⟩
  · have hqn : q.negateExpr.IsBool := ⟨hq.constraints, Expr.isBool_createIsZero hq.expr⟩
    have hPn : P → q.negateExpr.Evaluable := fun hp =>
      ⟨(hP hp).1, nodeWise_evaluable.createIsZero (hP hp).2⟩
    refine (computeTruth_ensures hs h hqn hPn).bind ?_
    rintro (_ | valid) st' ⟨hst, hr⟩
    · exact Ensures.pure ⟨hst, hr.none⟩
    · have hv := hr.1 valid rfl
      cases valid with
      | true =>
        have hfalse : ∀ σ, Satisfies σ q.constraints → ¬ Holds σ q.expr :=
          fun σ hσ => (hneg σ).mp (hv.mp rfl σ hσ)
        exact Ensures.pure ⟨hst, answers_some (validity_eq_false ⟨_, hb⟩ hfalse).symm⟩
      | false =>
        obtain ⟨σ, hσ, hσe⟩ := q.negateExpr.not_valid_iff.mp fun h => by simpa using hv.mpr h
        have hσe : Holds σ q.expr := not_not.mp fun hn => hσe ((hneg σ).mpr hn)
        exact Ensures.pure ⟨hst, answers_some (validity_eq_unknown hσ hσe hb htrue).symm⟩

theorem computeValidity_ensures (hs : impl.Solves) (h : Inv st) (hq : q.IsBool)
    (hsat : Satisfiable q.constraints) (hP : P → q.Evaluable) :
    Ensures (Admits P) (computeValidity impl opts ord before q) st
      (fun r st' => Inv st' ∧ Answers impl (· = validity q.constraints q.expr) r) := by
  refine (anySolution_ensures hs h hq.constraints hsat hP).bind ?_
  rintro (_ | b) st' ⟨hst, hr⟩
  · exact Ensures.pure ⟨hst, hr.none⟩
  · obtain ⟨hb, hbc⟩ := hr.1 b rfl
    have ht := (isBool_iff.mp hq.expr).1
    refine (constantValue_ensures hst hb ht fun hp => (hP hp).2).bind ?_
    rintro _ st'' ⟨h'', rfl⟩
    exact settle_ensures hs h'' hq hP hbc

theorem computeValue_ensures (hs : impl.Solves) (h : Inv st)
    (hcs : ∀ c ∈ q.constraints, c.isBool = true) (ht : q.expr.wellTyped = true)
    (hsat : Satisfiable q.constraints) (hP : P → q.Evaluable) :
    Ensures (Admits P) (computeValue impl opts ord before q) st
      (fun r st' => Inv st' ∧ Answers impl (CanBe q.constraints q.expr) r) := by
  refine (anySolution_ensures hs h hcs hsat hP).bind ?_
  rintro (_ | b) st' ⟨hst, hr⟩
  · exact Ensures.pure ⟨hst, hr.none⟩
  · obtain ⟨hb, hbc⟩ := hr.1 b rfl
    refine (constantValue_ensures hst hb ht fun hp => (hP hp).2).bind ?_
    rintro _ st'' ⟨h'', rfl⟩
    exact Ensures.pure ⟨h'', answers_some ⟨_, hbc, rfl⟩⟩

theorem valuesOf_eq {b : Bindings} (hb : b.Fits) (objects : List KleeArray) :
    valuesOf b objects = objects.map fun a => (List.range a.size).map (b.toAssignment a) := by
  refine List.map_congr_left fun os _ => List.ext_getElem? fun i => ?_
  cases hf : b.find os with
  | none => by_cases hi : i < os.size <;> simp [Bindings.toAssignment, hf, hi]
  | some values =>
    have hlen := (hb os values hf).2
    by_cases hi : i < os.size <;> simp [Bindings.toAssignment, hf, hi, hlen]

theorem computeInitialValues_ensures (hs : impl.Solves) (h : Inv st) (hq : q.IsBool)
    (hP : P → q.Evaluable) (objects : List KleeArray) :
    Ensures (Admits P) (computeInitialValues impl opts ord before q objects) st
      (fun r st' => Inv st' ∧ Answers impl (Initial q objects) r) := by
  refine (getAssignment_ensures hs h hq hP).bind ?_
  rintro (_ | _ | b) st' ⟨hst, hr⟩
  · exact Ensures.pure ⟨hst, hr.none⟩
  · have hvalid : q.Valid := hr.1 _ rfl
    exact Ensures.pure ⟨hst, answers_some hvalid⟩
  · have hb : b.Fits ∧ q.Refutes b.toAssignment := hr.1 _ rfl
    exact Ensures.pure ⟨hst, answers_some ⟨_, hb.2, valuesOf_eq hb.1 objects⟩⟩

/-- What callers guarantee of a call. -/
def Call.Proper : Call → Prop
  | .computeTruth q | .computeInitialValues q _ => q.IsBool
  | .computeValidity q => q.IsBool ∧ Satisfiable q.constraints
  | .computeValue q => (∀ c ∈ q.constraints, c.isBool = true) ∧ q.expr.wellTyped = true ∧
    Satisfiable q.constraints

/-- The answer to a call is right. -/
def Right (impl : SolverImpl S) : Call → Answer → Prop
  | .computeTruth q, .truth r => Answers impl (fun b => b = true ↔ q.Valid) r
  | .computeValidity q, .validity r => Answers impl (· = validity q.constraints q.expr) r
  | .computeValue q, .value r => Answers impl (CanBe q.constraints q.expr) r
  | .computeInitialValues q objects, .initialValues r => Answers impl (Initial q objects) r
  | _, _ => False

theorem step_ensures (hs : impl.Solves) (h : Inv st) {c : Call} (hc : c.Proper)
    (hP : P → c.query.Evaluable) :
    Ensures (Admits P) (step impl opts ord before c) st
      (fun answer st' => Inv st' ∧ Right impl c answer) := by
  cases c with
  | computeTruth q =>
    exact (computeTruth_ensures hs h hc hP).bind fun _ _ hr => Ensures.pure hr
  | computeValidity q =>
    exact (computeValidity_ensures hs h hc.1 hc.2 hP).bind fun _ _ hr => Ensures.pure hr
  | computeValue q =>
    obtain ⟨hcs, ht, hsat⟩ := hc
    exact (computeValue_ensures hs h hcs ht hsat hP).bind fun _ _ hr => Ensures.pure hr
  | computeInitialValues q objects =>
    exact (computeInitialValues_ensures hs h hc hP objects).bind fun _ _ hr => Ensures.pure hr

theorem run_ensures (hs : impl.Solves) (h : Inv st) {calls : List Call}
    (hcs : ∀ c ∈ calls, c.Proper) (hP : P → ∀ c ∈ calls, c.query.Evaluable) :
    Ensures (Admits P) (run impl opts ord before calls) st
      (fun answers st' => Inv st' ∧ List.Forall₂ (Right impl) calls answers) := by
  induction calls generalizing st with
  | nil => exact Ensures.pure ⟨h, .nil⟩
  | cons c calls ih =>
    refine (step_ensures hs h (hcs c List.mem_cons_self) fun hp => hP hp c List.mem_cons_self).bind
      fun answer st' ⟨hst, ha⟩ => ?_
    refine (ih hst (fun c hc => hcs c (List.mem_cons_of_mem _ hc))
      fun hp c hc => hP hp c (List.mem_cons_of_mem _ hc)).bind fun _ _ ⟨hst', has⟩ => ?_
    exact Ensures.pure ⟨hst', .cons ha has⟩

end Calls

/-- The cache is transparent: in every sequence of calls every answer is right for its
own query. The process stops only where the evaluation of an expression does not come
to a constant, and not for want of a solution. -/
theorem run_answers_right {S : Type} (impl : SolverImpl S) (hs : impl.Solves) (opts : Options)
    (ord : ExprOrder) (before : Bindings → Bindings → Bool) (s : S) (calls : List Call)
    (hcs : ∀ c ∈ calls, c.Proper) :
    match run impl opts ord before calls ⟨MapOfSets.empty, [], s⟩ with
    | .ok (answers, _) => List.Forall₂ (Right impl) calls answers
    | .error err => err ≠ .mustHaveAssignment ∧ ∃ c ∈ calls, ¬ c.query.Evaluable := by
  have hinit : Inv (S := S) ⟨MapOfSets.empty, [], s⟩ :=
    ⟨fun set r h => (not_stores_empty set r h).elim, by simp⟩
  have h : Ensures (Admits (∀ c ∈ calls, c.query.Evaluable)) (run impl opts ord before calls)
      ⟨MapOfSets.empty, [], s⟩ _ := run_ensures hs hinit hcs id
  unfold Ensures at h
  split at h
  next answers st hrun =>
    rw [hrun]
    exact h.2
  next err hrun =>
    rw [hrun]
    cases err with
    | mustHaveAssignment => exact h.elim
    | evaluation _ | notConstant => exact ⟨nofun, by simpa [Admits] using h⟩

open Classical in
/-- Some order of expressions. -/
noncomputable def someOrder : ExprOrder where
  lt a b := decide (WellOrderingRel a b)
  eq_of_not_lt a b h h' := by
    rcases trichotomous_of WellOrderingRel a b with hlt | rfl | hlt
    · exact absurd hlt (by simpa using h)
    · rfl
    · exact absurd hlt (by simpa using h')

/-- A byte may be zero or not: the second call is answered with the solution of the
first. -/
theorem run_answers_right_byte :
    let isZero := Expr.binary .Eq (.alloc 0 8) (.read (.root ⟨"x", 1, 0, []⟩) (.alloc 0 32))
    ∃ st, run idealImpl ⟨true, true⟩ someOrder (fun _ _ => true)
      [.computeTruth ⟨[], isZero⟩, .computeValidity ⟨[], isZero⟩] ⟨MapOfSets.empty, [], ⟨⟩⟩ =
        .ok ([.truth (some false), .validity (some .Unknown)], st) := by
  intro isZero
  have hyes : Holds (fun _ _ => 0#8) isZero := rfl
  have hno : ¬ Holds (fun _ _ => 1#8) isZero := by decide
  have hbool : Query.IsBool ⟨[], isZero⟩ := ⟨by simp, rfl⟩
  have hsat : Satisfiable [] := ⟨_, satisfies_nil fun _ _ => 0#8⟩
  have h := run_answers_right idealImpl idealImpl_solves ⟨true, true⟩ someOrder (fun _ _ => true)
    ⟨⟩ [.computeTruth ⟨[], isZero⟩, .computeValidity ⟨[], isZero⟩] (by
      intro c hc
      rcases List.mem_pair.mp hc with rfl | rfl
      · exact hbool
      · exact ⟨hbool, hsat⟩)
  split at h
  next answers st hrun =>
    refine ⟨st, hrun.trans ?_⟩
    obtain - | ⟨h₁, - | ⟨h₂, - | _⟩⟩ := h
    next a b =>
    obtain ⟨_ | isValid⟩ | _ | _ | _ := a
    · simpa using h₁.2 idealImpl_responds
    · obtain _ | ⟨_ | result⟩ | _ | _ := b
      · exact h₂.elim
      · simpa using h₂.2 idealImpl_responds
      · have hv : validity [] isZero = .Unknown :=
          validity_eq_unknown (satisfies_nil _) hyes (satisfies_nil _) hno
        have hb : isValid = false := by
          refine Bool.eq_false_iff.mpr fun hb => hno ?_
          exact (h₁.1 isValid rfl).mp hb _ (satisfies_nil _)
        rw [hb, h₂.1 result rfl, hv]
      · exact h₂.elim
      · exact h₂.elim
    · exact h₁.elim
    · exact h₁.elim
    · exact h₁.elim
  next err hrun =>
    obtain ⟨-, c, hc, hne⟩ := h
    rcases List.mem_pair.mp hc with rfl | rfl <;> exact absurd ⟨by simp [Call.query], rfl⟩ hne

end CexCachingSolver

end TaseVerifier
