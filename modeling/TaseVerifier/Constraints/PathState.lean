import TaseVerifier.Constraints.AddSpec
import TaseVerifier.Constraints.Slicing

/-! A path: the arrays made so far, the constraint manager and the two union-find
stores. A run makes arrays, adds constraints and clears the vector. Along every run
whose joins meet the condition of the store, the stores hold all that was ever
added, while the vector holds what was added since it was last cleared. -/

namespace TaseVerifier

open UFManager ConstraintManager

structure PathState where
  arrays : List KleeArray
  cons : ConstraintState UFManager
  deriving DecidableEq

namespace PathState

def init : PathState := ⟨[], ⟨[], [], empty, empty⟩⟩

/-- `ArrayCache::CreateArray`. A symbolic array with the name and size of an earlier
one is destroyed again, and with it the elements just appended to the stores. -/
def createArray (name : String) (size : ℕ) (constantValues : List APInt) (s : PathState) :
    KleeArray × PathState :=
  let a : KleeArray := ⟨name, size, s.cons.ufmanager.size, constantValues⟩
  match s.arrays.find? fun b => a.isSymbolicArray && b.isSymbolicArray && b.name == name &&
      b.size == size with
  | some b => (b, s)
  | none => (a,
      { arrays := s.arrays ++ [a]
        cons := { s.cons with
          ufmanager := (s.cons.ufmanager.create a).2
          ufmanagerCheat := (s.cons.ufmanagerCheat.create a).2 } })

def addConstraint (e : Expr) (s : PathState) : Except Abort PathState := do
  let cons ← ConstraintManager.addConstraint updateUFStructures e s.cons
  pure { s with cons := cons }

def clear (s : PathState) : PathState := { s with cons := ConstraintManager.clear s.cons }

inductive Call where
  | createArray (name : String) (size : ℕ) (constantValues : List APInt)
  | addConstraint (e : Expr)
  | clear
  deriving DecidableEq

def step (s : PathState) : Call → Except Abort PathState
  | .createArray name size values => pure (s.createArray name size values).2
  | .addConstraint e => s.addConstraint e
  | .clear => pure s.clear

def run (calls : List Call) (s : PathState) : Except Abort PathState := calls.foldlM step s

/-- Every call made along the run satisfies `P` in the state it is made in. -/
def Along (P : PathState → Call → Prop) : PathState → List Call → Prop
  | _, [] => True
  | s, call :: calls => P s call ∧ ∀ s', s.step call = .ok s' → Along P s' calls

instance decidableAlong (P : PathState → Call → Prop) [∀ s, DecidablePred (P s)] :
    ∀ (s : PathState) (calls : List Call), Decidable (Along P s calls)
  | _, [] => .isTrue trivial
  | s, call :: calls =>
    match h : s.step call with
    | .error _ => decidable_of_iff (P s call) ⟨fun hp => ⟨hp, by simp [h]⟩, And.left⟩
    | .ok s₁ =>
      have := decidableAlong P s₁ calls
      decidable_of_iff (P s call ∧ Along P s₁ calls)
        ⟨fun hp => ⟨hp.1, by rw [h]; rintro s' ⟨⟩; exact hp.2⟩, fun hp => ⟨hp.1, hp.2 s₁ h⟩⟩

/-- Constraints are boolean and mention arrays that exist. -/
def WellFormed (s : PathState) : Call → Prop
  | .addConstraint e => e.isBool = true ∧ e.Over s.arrays
  | _ => True

instance (s : PathState) : DecidablePred (WellFormed s)
  | .createArray _ _ _ | .clear => .isTrue trivial
  | .addConstraint e => inferInstanceAs (Decidable (e.isBool = true ∧ e.Over s.arrays))

end PathState

/-- The updates of the union-find store that adding `e` makes. -/
def ConstraintManager.updates {U : Type} (e : Expr) (s : ConstraintState U) : UFLog :=
  match ConstraintManager.addConstraint logUpdate e (logged s) with
  | .ok t => t.ufmanager
  | .error _ => []

def ConstraintManager.updateCalls (log : UFLog) : List UFOp := log.flatMap fun p => updateOps p.1 p.2

namespace PathState

/-- Every `join` that adding a constraint makes meets the condition of the store. -/
def JoinsOk (s : PathState) : Call → Prop
  | .addConstraint e =>
    UFManager.Along UFOp.Ok s.cons.ufmanager (updateCalls (updates e s.cons))
  | _ => True

instance (s : PathState) : DecidablePred (JoinsOk s)
  | .createArray _ _ _ | .clear => .isTrue trivial
  | .addConstraint e =>
    UFManager.decidableAlong UFOp.Ok s.cons.ufmanager (updateCalls (updates e s.cons))

/-- All constraints passed to `addConstraint`. -/
def added (calls : List Call) : List Expr :=
  calls.filterMap fun
    | .addConstraint e => some e
    | _ => none

/-- The state `s` of a path on which the constraints `es` were added, with the
constraints `stored` handed to the store. -/
structure Inv (s : PathState) (es stored : List Expr) (joins : List (ℕ × ℕ))
    (stores : List (ℕ × Expr)) : Prop where
  store : StoreInv s.cons.ufmanager stored joins stores
  bool : BoolAll s.cons.constraints
  vector : ∀ c ∈ s.cons.constraints, c ∈ stored
  arrays : ∀ a ∈ s.arrays, a.ufe < s.cons.ufmanager.size
  isOver : ∀ c ∈ s.cons.constraints, c.Over s.arrays
  meaning : ∀ σ, Satisfies σ stored ↔ Satisfies σ es

theorem inv_init : Inv init [] [] [] [] :=
  ⟨storeInv_empty, by simp [init, BoolAll], by simp [init], by simp [init], by simp [init], by simp⟩

section Steps

variable {s s' : PathState} {es stored : List Expr} {joins : List (ℕ × ℕ)}
  {stores : List (ℕ × Expr)}

theorem Inv.createArray (h : Inv s es stored joins stores) (name : String) (size : ℕ)
    (values : List APInt) : Inv (s.createArray name size values).2 es stored joins stores := by
  unfold PathState.createArray
  simp only
  split
  · exact h
  · have hsize : ∀ x, (s.cons.ufmanager.create x).2.size = s.cons.ufmanager.size + 1 := by
      simp [UFManager.create, UFManager.size]
    refine ⟨h.store.create _, h.bool, h.vector, fun a ha => ?_, fun c hc a ha => ?_, h.meaning⟩
    · simp only [hsize]
      rcases List.mem_append.mp ha with ha | ha
      · exact Nat.lt_succ_of_lt (h.arrays a ha)
      · obtain rfl := List.mem_singleton.mp ha
        exact Nat.lt_succ_self _
    · exact List.mem_append_left _ (h.isOver c hc a ha)

theorem createArray_constraints (name : String) (size : ℕ) (values : List APInt) (s : PathState) :
    (s.createArray name size values).2.cons.constraints = s.cons.constraints := by
  unfold PathState.createArray
  simp only
  split <;> rfl

theorem Inv.clear (h : Inv s es stored joins stores) : Inv s.clear es stored joins stores :=
  ⟨h.store, by simp [PathState.clear, ConstraintManager.clear, BoolAll],
    by simp [PathState.clear, ConstraintManager.clear], h.arrays,
    by simp [PathState.clear, ConstraintManager.clear], h.meaning⟩

/-- Playing back updates that meet the condition. -/
theorem storeInv_replay {m : UFManager} (h : StoreInv m stored joins stores) {log : UFLog}
    (hlog : ∀ p ∈ log, p.1 = findSymbolicObjects p.2)
    (hr : ∀ p ∈ log, ∀ a ∈ p.2.symbolicRoots, a.ufe < m.size)
    (hok : UFManager.Along UFOp.Ok m (updateCalls log)) :
    (∃ joins' stores', StoreInv (replay updateUFStructures log m) (stored ++ log.map Prod.snd)
      joins' stores') ∧ (replay updateUFStructures log m).size = m.size := by
  induction log generalizing m stored joins stores with
  | nil => exact ⟨⟨joins, stores, by simpa [replay] using h⟩, rfl⟩
  | cons p log ih =>
    have hp := hlog p List.mem_cons_self
    have hrp := hr p List.mem_cons_self
    rw [updateCalls, List.flatMap_cons, along_append, hp] at hok
    have hr' : ∀ a ∈ findSymbolicObjects p.2, a.ufe < m.size :=
      fun a ha => hrp a ((mem_findSymbolicObjects _ a).mp ha)
    have heq := updateUFStructures_eq_runOps p.2 h.classes.wf hr'
    have hup := h.update hrp hok.1
    have hsize : (updateUFStructures (findSymbolicObjects p.2) p.2 m).size = m.size :=
      size_updateUFStructures _ _ _
    obtain ⟨⟨joins', stores', hinv⟩, hs⟩ := ih hup
      (fun q hq => hlog q (List.mem_cons_of_mem _ hq))
      (fun q hq a ha => by rw [hsize]; exact hr q (List.mem_cons_of_mem _ hq) a ha)
      (by rw [heq]; exact hok.2)
    refine ⟨⟨joins', stores', ?_⟩, ?_⟩
    · simpa [replay, hp] using hinv
    · rw [← hsize, ← hs]
      simp [replay, hp]

/-- Adding a constraint adds its meaning to the vector, whatever the store does. -/
theorem satisfies_addConstraint (hb : BoolAll s.cons.constraints) {e : Expr} (he : e.isBool = true)
    (hs : s.addConstraint e = .ok s') :
    BoolAll s'.cons.constraints ∧
      ∀ σ, Satisfies σ s'.cons.constraints ↔ Satisfies σ s.cons.constraints ∧ Holds σ e := by
  obtain ⟨cons, hcons, hs⟩ := ExprReplaceVisitor.bind_eq_ok.mp hs
  cases hs
  rw [addConstraint_replay] at hcons
  have hspec := addConstraint_spec 0 (s := logged s.cons) hb he
  cases ht : ConstraintManager.addConstraint logUpdate e (logged s.cons) with
  | error a => rw [ht] at hcons; cases hcons
  | ok t =>
    rw [ht] at hcons hspec
    cases hcons
    have hgrown : Grown _ _ _ _ _ (logged s.cons) t := hspec
    exact ⟨hgrown.bool, fun σ => hgrown.meaning σ trivial⟩

theorem Inv.addConstraint (h : Inv s es stored joins stores) {e : Expr}
    (hwf : WellFormed s (.addConstraint e)) (hok : JoinsOk s (.addConstraint e))
    (hs : s.addConstraint e = .ok s') :
    (∃ joins' stores', Inv s' (es ++ [e]) (stored ++ (updates e s.cons).map Prod.snd) joins'
      stores') ∧
      ∀ σ, Satisfies σ s'.cons.constraints ↔ Satisfies σ s.cons.constraints ∧ Holds σ e := by
  obtain ⟨cons, hcons, hs⟩ := ExprReplaceVisitor.bind_eq_ok.mp hs
  cases hs
  rw [addConstraint_replay] at hcons
  cases ht : ConstraintManager.addConstraint logUpdate e (logged s.cons) with
  | error a => rw [ht] at hcons; cases hcons
  | ok t =>
    rw [ht] at hcons
    cases hcons
    have hspec := addConstraint_spec 0 (s := logged s.cons) h.bool hwf.1
    rw [ht] at hspec
    have hgrown : Grown _ _ _ _ _ (logged s.cons) t := hspec
    obtain ⟨new, hnew, himp, hmem⟩ := hgrown.log
    have hover : OverAll s.arrays t :=
      addConstraintInternal_over _ (fun _ he => he) hwf.2 hwf.2
        ⟨h.isOver, by simp [logged, ConstraintState.map]⟩ ht
    obtain rfl : t.ufmanager = new := hnew
    have hjoins : UFManager.Along UFOp.Ok s.cons.ufmanager (updateCalls t.ufmanager) := by
      simpa [JoinsOk, updates, ht] using hok
    have hV : ∀ σ, Satisfies σ t.constraints ↔ Satisfies σ s.cons.constraints ∧ Holds σ e :=
      fun σ => hgrown.meaning σ trivial
    obtain ⟨⟨joins', stores', hinv⟩, hsize⟩ := storeInv_replay h.store (fun p hp => (himp p hp).1)
      (fun p hp a ha => h.arrays a (hover.2 p hp a ha)) hjoins
    have hvector : ∀ c ∈ t.constraints, c ∈ stored ++ t.ufmanager.map Prod.snd := by
      intro c hc
      rcases hmem c hc with hc | hc | ⟨p, hp, rfl⟩
      · exact List.mem_append_left _ (h.vector c hc)
      · cases hc
      · exact List.mem_append_right _ (List.mem_map_of_mem hp)
    have hup : updates e s.cons = t.ufmanager := by simp [updates, ht]
    rw [hup]
    refine ⟨⟨joins', stores', hinv, hgrown.bool, hvector, fun a ha => ?_, hover.1, fun σ => ?_⟩, hV⟩
    · exact lt_of_lt_of_eq (h.arrays a ha) hsize.symm
    · rw [satisfies_append, satisfies_append, h.meaning]
      constructor
      · rintro ⟨hes, hnew⟩
        have hall : Satisfies σ (stored ++ t.ufmanager.map Prod.snd) :=
          (satisfies_append _ _ _).mpr ⟨(h.meaning σ).mpr hes, hnew⟩
        have hVt : Satisfies σ t.constraints := fun c hc => hall c (hvector c hc)
        exact ⟨hes, by simpa using ((hV σ).mp hVt).2⟩
      · rintro ⟨hes, he⟩
        have hVs : Satisfies σ s.cons.constraints :=
          fun c hc => (h.meaning σ).mpr hes c (h.vector c hc)
        refine ⟨hes, fun c hc => ?_⟩
        obtain ⟨p, hp, rfl⟩ := List.mem_map.mp hc
        exact (himp p hp).2.2 σ trivial hVs (by simpa using he)

theorem Inv.step (h : Inv s es stored joins stores) {call : Call} (hwf : WellFormed s call)
    (hok : JoinsOk s call) (hs : s.step call = .ok s') :
    ∃ stored' joins' stores', Inv s' (es ++ added [call]) stored' joins' stores' := by
  cases call with
  | createArray name size values =>
    cases hs
    exact ⟨stored, joins, stores, by simpa [added] using h.createArray name size values⟩
  | addConstraint e =>
    obtain ⟨joins', stores', hinv⟩ := (h.addConstraint hwf hok hs).1
    exact ⟨_, joins', stores', hinv⟩
  | clear =>
    cases hs
    exact ⟨stored, joins, stores, by simpa [added] using h.clear⟩

theorem added_append (xs ys : List Call) : added (xs ++ ys) = added xs ++ added ys := by
  simp [added]

/-- The invariant along whole runs. -/
theorem inv_run {calls : List Call} (h : Inv s es stored joins stores)
    (hwf : Along WellFormed s calls) (hok : Along JoinsOk s calls) (hs : s.run calls = .ok s') :
    ∃ stored' joins' stores', Inv s' (es ++ added calls) stored' joins' stores' := by
  induction calls generalizing s es stored joins stores with
  | nil =>
    cases hs
    exact ⟨stored, joins, stores, by simpa [added] using h⟩
  | cons call calls ih =>
    rw [run, List.foldlM_cons] at hs
    obtain ⟨s₁, h₁, h₂⟩ := ExprReplaceVisitor.bind_eq_ok.mp hs
    obtain ⟨stored₁, joins₁, stores₁, hinv⟩ := h.step hwf.1 hok.1 h₁
    have hrest := ih hinv (hwf.2 s₁ h₁) (hok.2 s₁ h₁) h₂
    rwa [List.append_assoc, ← added_append] at hrest

/-- Without a `clear` the vector keeps the meaning of all that was added. -/
theorem satisfies_run {calls : List Call} (hnc : .clear ∉ calls)
    (h : Inv s es stored joins stores) (hV : ∀ σ, Satisfies σ s.cons.constraints ↔ Satisfies σ es)
    (hwf : Along WellFormed s calls) (hok : Along JoinsOk s calls) (hs : s.run calls = .ok s') :
    ∀ σ, Satisfies σ s'.cons.constraints ↔ Satisfies σ (es ++ added calls) := by
  induction calls generalizing s es stored joins stores with
  | nil =>
    cases hs
    simpa [added] using hV
  | cons call calls ih =>
    rw [run, List.foldlM_cons] at hs
    obtain ⟨s₁, h₁, h₂⟩ := ExprReplaceVisitor.bind_eq_ok.mp hs
    obtain ⟨stored₁, joins₁, stores₁, hinv⟩ := h.step hwf.1 hok.1 h₁
    have hV₁ : ∀ σ, Satisfies σ s₁.cons.constraints ↔ Satisfies σ (es ++ added [call]) := by
      intro σ
      cases call with
      | createArray name size values =>
        cases h₁
        simpa [createArray_constraints, added] using hV σ
      | addConstraint e =>
        rw [(h.addConstraint hwf.1 hok.1 h₁).2 σ, hV σ]
        simp [added]
      | clear => exact absurd List.mem_cons_self hnc
    have hrest := ih (fun hmem => hnc (List.mem_cons_of_mem _ hmem)) hinv hV₁ (hwf.2 s₁ h₁)
      (hok.2 s₁ h₁) h₂
    rwa [List.append_assoc, ← added_append] at hrest

end Steps

end PathState

end TaseVerifier
