import TaseVerifier.Constraints.TakesIn
import TaseVerifier.Solver.Independent
import Mathlib.Algebra.BigOperators.Group.Finset.Basic

/-! Copies of a constraint manager. The copy has a vector of its own, but both managers
hand their constraints to the one union-find store, and queries about either are
answered from that store. -/

namespace TaseVerifier

open UFManager

namespace ConstraintManager

section Copy

variable {U : Type}

/-- The copy constructor takes the constraints only; the stores belong to no manager. -/
def copy (s : ConstraintState U) : ConstraintState U := { s with cheatConstraints := [] }

/-- The manager `s`, after another manager left the stores as in `t`. -/
def beside (s t : ConstraintState U) : ConstraintState U :=
  { s with ufmanager := t.ufmanager, ufmanagerCheat := t.ufmanagerCheat }

/-- `addConstraint` with the caller's list of arrays, if it passed one. -/
def addConstraintNamed (upd : List KleeArray → Expr → U → U) (e : Expr)
    (symNames : Option (List KleeArray)) (s : ConstraintState U) :
    Except Abort (ConstraintState U) :=
  addConstraintInternal upd (depth e s) e symNames false s

/-- A sequence of additions, each with the arrays its caller passed. -/
abbrev Additions := List (Expr × Option (List KleeArray))

def addAll (upd : List KleeArray → Expr → U → U) (adds : Additions) (s : ConstraintState U) :
    Except Abort (ConstraintState U) :=
  adds.foldlM (fun s p => addConstraintNamed upd p.1 p.2 s) s

/-- The updates of the store that the additions to a copy make. -/
def copyUpdates (adds : Additions) (s : ConstraintState U) : UFLog :=
  match addAll logUpdate adds (logged (copy s)) with
  | .ok t => t.ufmanager
  | .error _ => []

/-- The constraints take in the additions one after the other and become the last list. -/
def TakesInAll (P : List KleeArray → Expr → Prop) : List Expr → Additions → List Expr → Prop
  | cs, [], cs' => cs' = cs
  | cs, p :: adds, cs' => ∃ cs₁, TakesIn P cs p.1 p.2 cs₁ ∧ TakesInAll P cs₁ adds cs'

/-- Nothing is stored for an array: no added constraint or conjunct of it, and no
constraint of the copy that it rewrites, comes with one. -/
def Quiet (adds : Additions) (s : ConstraintState U) : Prop :=
  ∃ cs', TakesInAll (fun arrays _ => arrays = []) s.constraints adds cs'

theorem addAll_logged {adds : Additions} {s s' : ConstraintState UFLog}
    (h : addAll logUpdate adds s = .ok s') :
    Logged s s' fun P => TakesInAll P s.constraints adds s'.constraints := by
  induction adds generalizing s with
  | nil =>
    cases h
    exact ⟨[], by simp, fun P _ => rfl⟩
  | cons p adds ih =>
    rw [addAll, List.foldlM_cons] at h
    obtain ⟨s₁, h₁, h₂⟩ := ExprReplaceVisitor.bind_eq_ok.mp h
    exact (addConstraintInternal_logged h₁).bind (ih h₂) fun P he hrest => ⟨_, he, hrest⟩

theorem TakesInAll.adds {P : List KleeArray → Expr → Prop} {adds : Additions}
    {s : ConstraintState UFLog} {cs' : List Expr} (h : TakesInAll P s.constraints adds cs') :
    Adds P s cs' (addAll logUpdate adds s) := by
  induction adds generalizing s with
  | nil =>
    obtain rfl := h
    exact Adds.of_constraints _
  | cons p adds ih =>
    obtain ⟨cs₁, h₁, h₂⟩ := h
    rw [addAll, List.foldlM_cons]
    refine ((takesIn_iff (Nat.lt_succ_self _)).mp h₁).bind fun s₁ hs₁ => ih ?_
    rw [hs₁]
    exact h₂

/-- The store after the additions is the old one with the updates played back. -/
theorem ufmanager_addAll (upd : List KleeArray → Expr → U → U) {adds : Additions}
    {s t : ConstraintState U} (h : addAll upd adds (copy s) = .ok t) :
    ∃ t', addAll logUpdate adds (logged (copy s)) = .ok t' ∧ copyUpdates adds s = t'.ufmanager ∧
      t.ufmanager = replay upd (copyUpdates adds s) s.ufmanager := by
  have hreplay : addAll upd adds (copy s) =
      (addAll logUpdate adds (logged (copy s))).map (replayed upd (copy s)) :=
    foldlM_map (f := replayed upd (copy s)) (fun t p =>
      addConstraintInternal_map (fun as e log => replay_logUpdate upd as e log _)
        (fun as e log => replay_logUpdate upd as e log _) _ p.1 p.2 false t) adds (logged (copy s))
  rw [hreplay] at h
  unfold copyUpdates
  cases hl : addAll logUpdate adds (logged (copy s)) with
  | error a =>
    rw [hl] at h
    cases h
  | ok t' =>
    rw [hl] at h
    cases h
    exact ⟨t', rfl, rfl, rfl⟩

/-- The updates for the additions come with no array exactly if nothing is stored for one. -/
theorem quiet_iff (upd : List KleeArray → Expr → U → U) {adds : Additions}
    {s t : ConstraintState U} (h : addAll upd adds (copy s) = .ok t) :
    Quiet adds s ↔ ∀ p ∈ copyUpdates adds s, p.1 = [] := by
  obtain ⟨t', ht', hlog, -⟩ := ufmanager_addAll upd h
  rw [hlog]
  constructor
  · rintro ⟨cs', htakes⟩
    obtain ⟨t'', ht'', -, new, hnew, hP⟩ := TakesInAll.adds (s := logged (copy s)) htakes
    obtain rfl := Except.ok.inj (ht'.symm.trans ht'')
    exact fun p hp => hP p (by rw [hnew] at hp; exact hp)
  · intro hP
    obtain ⟨new, hnew, htakes⟩ := addAll_logged ht'
    exact ⟨_, htakes _ fun p hp => hP p (by rw [hnew]; exact hp)⟩

end Copy

end ConstraintManager

namespace UFManager

variable {m : UFManager}

/-- The number of constraints in the store. -/
def stored (m : UFManager) : ℕ := ∑ i ∈ Finset.range m.size, (m.constraints i).length

theorem stored_compressed {m' : UFManager} (h : Compressed m m') : m'.stored = m.stored := by
  rw [stored, stored, h.size, h.constraints]

theorem stored_push {i : ℕ} (hi : i < m.size) (e : Expr) : (m.push i e).stored = m.stored + 1 := by
  have hc : (m.push i e).constraints = Function.update m.constraints i (m.constraints i ++ [e]) :=
    constraints_setConstraints _ hi
  have hmem : i ∈ Finset.range m.size := by simpa using hi
  rw [stored, stored, size_push, ← Finset.add_sum_erase _ _ hmem, ← Finset.add_sum_erase _ _ hmem]
  have hrest : ∀ k ∈ (Finset.range m.size).erase i,
      ((m.push i e).constraints k).length = (m.constraints k).length := by
    intro k hk
    rw [hc, Function.update_of_ne (Finset.ne_of_mem_erase hk)]
  rw [Finset.sum_congr rfl hrest, hc, Function.update_self, List.length_append]
  simp only [List.length_singleton]
  omega

/-- A join moves constraints and loses none. -/
theorem stored_join (hm : m.Wf) {a b : ℕ} (ha : a < m.size) (hb : b < m.size) :
    (m.join a b).2.stored = m.stored := by
  by_cases hab : (m.find a).1 = (m.find b).1
  · exact stored_compressed (join_of_eq hm hab).2.1
  · have hj := (join_of_ne hm ha hb hab).2
    have hne : a ≠ b := by
      rintro rfl
      exact hab rfl
    have hmb : b ∈ Finset.range m.size := by simpa using hb
    have hma : a ∈ (Finset.range m.size).erase b := by simpa [hne] using ha
    rw [stored, stored, hj.size, ← Finset.add_sum_erase _ _ hmb, ← Finset.add_sum_erase _ _ hmb,
      ← Finset.add_sum_erase _ _ hma, ← Finset.add_sum_erase _ _ hma]
    have hrest : ∀ k ∈ ((Finset.range m.size).erase b).erase a,
        ((m.join a b).2.constraints k).length = (m.constraints k).length := by
      intro k hk
      obtain ⟨hka, hk⟩ := Finset.mem_erase.mp hk
      rw [hj.constraints, Function.update_of_ne (Finset.ne_of_mem_erase hk),
        Function.update_of_ne hka]
    rw [Finset.sum_congr rfl hrest, hj.constraints, Function.update_self,
      Function.update_of_ne hne, Function.update_self, List.length_append]
    simp only [List.length_nil]
    omega

/-- An update with arrays adds one constraint, an update without changes nothing. -/
theorem updateUFStructures_stored {arrs : List KleeArray} (e : Expr) (hm : m.Wf)
    (hr : ∀ a ∈ arrs, a.ufe < m.size) :
    (updateUFStructures arrs e m).Wf ∧
      (updateUFStructures arrs e m).stored = m.stored + if arrs = [] then 0 else 1 := by
  have hstore : ∀ {m : UFManager} (i : ℕ), m.Wf → i < m.size →
      ((m.find i).2.push (m.find i).1 e).Wf ∧
        ((m.find i).2.push (m.find i).1 e).stored = m.stored + 1 := by
    intro m i hm hi
    have hcomp := (find_spec hm i).2.1
    refine ⟨wf_push hcomp.wf _ e, ?_⟩
    rw [stored_push (by rw [hcomp.size]; exact find_lt hm hi), stored_compressed hcomp]
  match arrs with
  | [] => exact ⟨hm, rfl⟩
  | [a] => exact hstore a.ufe hm (hr a (by simp))
  | a :: b :: arrs =>
    have ha := hr a (by simp)
    have hb := hr b (by simp)
    have hc : ∀ c ∈ arrs, c.ufe < m.size := fun c hc => hr c (by simp [hc])
    clear hr
    rw [updateUFStructures, if_neg (by simp)]
    induction arrs generalizing a b m with
    | nil =>
      have hw := wf_join hm ha hb
      have hrep : (m.join a.ufe b.ufe).1 < (m.join a.ufe b.ufe).2.size := by
        rw [size_join]
        by_cases hab : (m.find a.ufe).1 = (m.find b.ufe).1
        · rw [(join_of_eq hm hab).1]; exact find_lt hm ha
        · rw [(join_of_ne hm ha hb hab).1]; exact find_lt hm ha
      exact ⟨wf_push hw _ e, by rw [joinAdjacent, stored_push hrep, stored_join hm ha hb]⟩
    | cons c arrs ih =>
      have hsize := size_join m a.ufe b.ufe
      rw [joinAdjacent, ← stored_join hm ha hb]
      exact ih (wf_join hm ha hb) b c (by rw [hsize]; exact hb)
        (by rw [hsize]; exact hc c (by simp)) fun d hd => by rw [hsize]; exact hc d (by simp [hd])

theorem replay_stored (log : ConstraintManager.UFLog) (hm : m.Wf)
    (hr : ∀ p ∈ log, ∀ a ∈ p.1, a.ufe < m.size) :
    (ConstraintManager.replay updateUFStructures log m).Wf ∧
      (ConstraintManager.replay updateUFStructures log m).size = m.size ∧
      m.stored ≤ (ConstraintManager.replay updateUFStructures log m).stored ∧
      ((ConstraintManager.replay updateUFStructures log m).stored = m.stored →
        ∀ p ∈ log, p.1 = []) := by
  induction log generalizing m with
  | nil => exact ⟨hm, rfl, le_rfl, fun _ p hp => by cases hp⟩
  | cons p log ih =>
    obtain ⟨hw, hs⟩ := updateUFStructures_stored p.2 hm (hr p List.mem_cons_self)
    have hsize := size_updateUFStructures m p.1 p.2
    obtain ⟨hw', hsize', hle, heq⟩ := ih hw fun q hq a ha => by
      rw [hsize]
      exact hr q (List.mem_cons_of_mem _ hq) a ha
    simp only [ConstraintManager.replay, List.foldl_cons] at hle heq hw' hsize' ⊢
    refine ⟨hw', hsize'.trans hsize, by omega, fun h q hq => ?_⟩
    have hp : p.1 = [] := by
      by_contra hp
      rw [if_neg hp] at hs
      omega
    rcases List.mem_cons.mp hq with rfl | hq
    · exact hp
    · rw [if_pos hp] at hs
      exact heq (by omega) q hq

theorem replay_quiet (log : ConstraintManager.UFLog) (h : ∀ p ∈ log, p.1 = []) :
    ConstraintManager.replay updateUFStructures log m = m := by
  induction log with
  | nil => rfl
  | cons p log ih =>
    have hp : updateUFStructures p.1 p.2 m = m := by
      rw [h p List.mem_cons_self]
      rfl
    rw [ConstraintManager.replay, List.foldl_cons, hp]
    exact ih fun q hq => h q (List.mem_cons_of_mem _ hq)

end UFManager

namespace PathState

open ConstraintManager

/-- What every run keeps, whatever it joins: a well-formed store, elements for all arrays,
and constraints over the arrays. -/
structure Sound (s : PathState) : Prop where
  wf : s.cons.ufmanager.Wf
  arrays : ∀ a ∈ s.arrays, a.ufe < s.cons.ufmanager.size
  isOver : ∀ c ∈ s.cons.constraints, c.Over s.arrays

section Sound

variable {s s' : PathState} {e : Expr} {symNames : Option (List KleeArray)}

/-- The arrays that come with the logged constraints have elements. -/
theorem Sound.logOver (h : s.Sound) {Q : List KleeArray × Expr → Prop}
    (hQ : Q = fun p => ∀ a ∈ p.1, a.ufe < s.cons.ufmanager.size) (he : e.Over s.arrays)
    (hn : ∀ a ∈ symNames.getD [], a ∈ s.arrays) {t t' : ConstraintState UFLog}
    (ht : LogOver s.arrays Q t) (h' : addConstraintNamed logUpdate e symNames t = .ok t') :
    LogOver s.arrays Q t' := by
  subst hQ
  have hfind : ∀ e : Expr, e.Over s.arrays → ∀ a ∈ findSymbolicObjects e,
      a.ufe < s.cons.ufmanager.size :=
    fun e he a ha => h.arrays a (he a ((mem_findSymbolicObjects e a).mp ha))
  refine addConstraintInternal_over _ hfind he ?_ ht h'
  cases symNames with
  | none => exact hfind e he
  | some names => exact fun a ha => h.arrays a (hn a ha)

theorem Sound.addConstraint (h : s.Sound) (he : e.Over s.arrays)
    (hs : s.addConstraint e = .ok s') : s'.Sound := by
  obtain ⟨cons, hcons, hs⟩ := ExprReplaceVisitor.bind_eq_ok.mp hs
  cases hs
  rw [addConstraint_replay] at hcons
  cases ht : ConstraintManager.addConstraint logUpdate e (logged s.cons) with
  | error a => rw [ht] at hcons; cases hcons
  | ok t =>
    rw [ht] at hcons
    cases hcons
    have hadd : addConstraintNamed logUpdate e none (logged s.cons) = .ok t := ht
    have hlog := h.logOver rfl he (by simp) ⟨h.isOver, by simp [logged, ConstraintState.map]⟩ hadd
    obtain ⟨hw, hsize, -⟩ := replay_stored t.ufmanager h.wf hlog.2
    exact ⟨hw, fun a ha => lt_of_lt_of_eq (h.arrays a ha) hsize.symm, hlog.1⟩

theorem Sound.createArray (h : s.Sound) (name : String) (size : ℕ) (values : List APInt) :
    (s.createArray name size values).2.Sound := by
  unfold PathState.createArray
  simp only
  split
  · exact h
  · obtain ⟨hw, hsize, -⟩ := create_spec h.wf ⟨name, size, s.cons.ufmanager.size, values⟩
    refine ⟨hw, fun a ha => ?_, fun c hc a ha => List.mem_append_left _ (h.isOver c hc a ha)⟩
    simp only [hsize]
    rcases List.mem_append.mp ha with ha | ha
    · exact Nat.lt_succ_of_lt (h.arrays a ha)
    · obtain rfl := List.mem_singleton.mp ha
      exact Nat.lt_succ_self _

theorem sound_init : init.Sound :=
  ⟨classes_empty.wf, by simp [init], by simp [init]⟩

theorem sound_run {calls : List Call} (h : s.Sound) (hwf : Along WellFormed s calls)
    (hs : s.run calls = .ok s') : s'.Sound := by
  induction calls generalizing s with
  | nil =>
    cases hs
    exact h
  | cons call calls ih =>
    rw [run, List.foldlM_cons] at hs
    obtain ⟨s₁, h₁, h₂⟩ := ExprReplaceVisitor.bind_eq_ok.mp hs
    refine ih ?_ (hwf.2 s₁ h₁) h₂
    cases call with
    | createArray name size values =>
      cases h₁
      exact h.createArray name size values
    | addConstraint e => exact h.addConstraint hwf.1.2 h₁
    | clear =>
      cases h₁
      exact ⟨h.wf, h.arrays, by simp [PathState.clear, ConstraintManager.clear]⟩

/-- The additions mention arrays that exist. -/
def AddsOver (s : PathState) (adds : Additions) : Prop :=
  ∀ p ∈ adds, p.1.Over s.arrays ∧ ∀ a ∈ p.2.getD [], a ∈ s.arrays

theorem Sound.addAll (h : s.Sound) {adds : Additions} (hadds : s.AddsOver adds)
    {Q : List KleeArray × Expr → Prop}
    (hQ : Q = fun p => ∀ a ∈ p.1, a.ufe < s.cons.ufmanager.size) {t t' : ConstraintState UFLog}
    (ht : LogOver s.arrays Q t) (h' : addAll logUpdate adds t = .ok t') :
    LogOver s.arrays Q t' := by
  induction adds generalizing t with
  | nil =>
    cases h'
    exact ht
  | cons p adds ih =>
    rw [ConstraintManager.addAll, List.foldlM_cons] at h'
    obtain ⟨t₁, h₁, h₂⟩ := ExprReplaceVisitor.bind_eq_ok.mp h'
    obtain ⟨he, hn⟩ := hadds p List.mem_cons_self
    exact ih (fun q hq => hadds q (List.mem_cons_of_mem _ hq)) (h.logOver hQ he hn ht h₁) h₂

end Sound

/-- The constraints that the queries are answered from stay the same exactly if the
additions to the copy store nothing for an array; then the answers stay the same. -/
theorem computeValidity_copy (calls : List Call) (s : PathState) (hwf : Along WellFormed init calls)
    (hrun : init.run calls = .ok s) (adds : Additions) (hadds : s.AddsOver adds)
    (t : ConstraintState UFManager) (ht : addAll updateUFStructures adds (copy s.cons) = .ok t) :
    ((beside s.cons t).ufmanager.constraints = s.cons.ufmanager.constraints ↔
      Quiet adds s.cons) ∧
    (Quiet adds s.cons → ∀ (solver : Solver) (e : Expr),
      IndependentSolver.computeValidity solver e (beside s.cons t).ufmanager =
        IndependentSolver.computeValidity solver e s.cons.ufmanager) := by
  have hs := sound_run sound_init hwf hrun
  obtain ⟨t', ht', hlog, hstore⟩ := ufmanager_addAll updateUFStructures ht
  have hover := hs.addAll hadds rfl ⟨hs.isOver, by simp [logged, ConstraintState.map]⟩ ht'
  obtain ⟨-, hsize, -, hquiet⟩ := replay_stored (copyUpdates adds s.cons) hs.wf (hlog ▸ hover.2)
  have hiff := quiet_iff updateUFStructures ht
  have hsame : Quiet adds s.cons → t.ufmanager = s.cons.ufmanager := by
    intro hq
    rw [hstore]
    exact replay_quiet _ (hiff.mp hq)
  have hbeside : (beside s.cons t).ufmanager = t.ufmanager := rfl
  refine ⟨⟨fun hc => hiff.mpr (hquiet ?_), fun hq => by rw [hbeside, hsame hq]⟩,
    fun hq solver e => by rw [hbeside, hsame hq]⟩
  rw [hbeside, hstore] at hc
  rw [stored, stored, hsize, hc]

/-- A constraint about a constant table is added to a copy; queries about `x` are
answered as before. -/
theorem computeValidity_copy_table :
    let x : KleeArray := ⟨"x", 1, 0, []⟩
    let table : KleeArray := ⟨"table", 1, 1, [APInt.ofNat 8 5]⟩
    let byte := fun a : KleeArray => Expr.read (.root a) (.alloc 0 32)
    let five := Expr.binary .Eq (.alloc 5 8) (byte table)
    let query := Expr.binary .Eq (.alloc 0 8) (byte x)
    ∃ s t, init.run [.createArray "x" 1 [], .createArray "table" 1 [APInt.ofNat 8 5]] = .ok s ∧
      addAll updateUFStructures [(five, none)] (copy s.cons) = .ok t ∧ t.constraints = [five] ∧
      IndependentSolver.computeValidity idealSolver query (beside s.cons t).ufmanager =
        IndependentSolver.computeValidity idealSolver query s.cons.ufmanager := by
  intro x table byte five query
  let m : UFManager := ⟨[⟨0, x, 0, []⟩, ⟨1, table, 0, []⟩]⟩
  have hrun : init.run [.createArray "x" 1 [], .createArray "table" 1 [APInt.ofNat 8 5]] =
      .ok ⟨[x, table], ⟨[], [], m, m⟩⟩ := rfl
  have hadd : addAll updateUFStructures [(five, none)] (copy ⟨[], [], m, m⟩) =
      .ok ⟨[five], [], m, m⟩ := rfl
  obtain ⟨-, hsame⟩ := computeValidity_copy _ _ (by decide) hrun [(five, none)]
    (by simp only [AddsOver]; decide) _ hadd
  exact ⟨_, _, hrun, hadd, rfl, hsame ⟨_, _, .equality rfl .nil rfl, rfl⟩ idealSolver query⟩

/-- A copy is told that `x` is zero, and the original takes it for proved. -/
theorem computeValidity_sees_copy :
    let x : KleeArray := ⟨"x", 1, 0, []⟩
    let isZero := Expr.binary .Eq (.alloc 0 8) (.read (.root x) (.alloc 0 32))
    ∃ s t, init.run [.createArray "x" 1 []] = .ok s ∧
      addAll updateUFStructures [(isZero, some [x])] (copy s.cons) = .ok t ∧
      (beside s.cons t).constraints = [] ∧
      IndependentSolver.computeValidity idealSolver isZero s.cons.ufmanager = some .Unknown ∧
      IndependentSolver.computeValidity idealSolver isZero (beside s.cons t).ufmanager =
        some .True := by
  intro x isZero
  let m : UFManager := ⟨[⟨0, x, 0, []⟩]⟩
  let m' : UFManager := ⟨[⟨0, x, 0, [isZero]⟩]⟩
  have hrun : init.run [.createArray "x" 1 []] = .ok ⟨[x], ⟨[], [], m, m⟩⟩ := rfl
  have hadd : addAll updateUFStructures [(isZero, some [x])] (copy ⟨[], [], m, m⟩) =
      .ok ⟨[isZero], [], m', m⟩ := rfl
  have hyes : Holds (fun _ _ => 0#8) isZero := rfl
  have hno : ¬ Holds (fun _ _ => 1#8) isZero := by decide
  have hbefore : m.required isZero = [] := rfl
  have hafter : m'.required isZero = [isZero] := rfl
  refine ⟨_, _, hrun, hadd, rfl, ?_, ?_⟩
  · simp only [IndependentSolver.computeValidity, hbefore]
    exact congrArg some (validity_eq_unknown (satisfies_nil _) hyes (satisfies_nil _) hno)
  · simp only [IndependentSolver.computeValidity, beside, hafter]
    exact congrArg some (if_pos fun σ hσ => hσ isZero (by simp))

end PathState

end TaseVerifier
