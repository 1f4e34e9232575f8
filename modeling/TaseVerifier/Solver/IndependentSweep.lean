import TaseVerifier.Solver.IndependentConstraints

/-! Which constraints reach the query without any closure: a sweep takes a constraint when it
shares an element with the expression or with one taken before, those passed by wait for the next
round. The closure of the solver agrees with it as long as no index that is still waited for is
passed over. -/

namespace TaseVerifier

namespace IndependentSolver

/-! ### The sweep -/

/-- The array has been read before, by all at constant indices, and the constraint reads the index
before every one that has been read. -/
structure PassedOver (taken : List Expr) (c : Expr) (a : KleeArray) (u : ℕ) : Prop where
  reads : c.ReadsElement a u
  known : ∃ e ∈ taken, ∃ v, e.ReadsElement a v
  constant : ∀ e ∈ c :: taken, e.ReadsConstantly a
  first : ∀ v, c.ReadsElement a v → (∃ e ∈ taken, e.ReadsElement a v) → u < v

/-- `waiting` wait for the next round and the last list for this one. No index is passed over that
a constraint reads which is not taken yet. -/
inductive SweepsCleanly : List Expr → List Expr → List Expr → Prop where
  | stop {taken waiting : List Expr}
    (h : ∀ c ∈ waiting, ∀ e ∈ taken, ¬ SharesElement e c) : SweepsCleanly taken waiting []
  | again {taken waiting : List Expr} {c e : Expr} (hc : c ∈ waiting) (he : e ∈ taken)
    (h : SharesElement e c) (next : SweepsCleanly taken [] waiting) :
    SweepsCleanly taken waiting []
  | leave {taken waiting cs : List Expr} {c : Expr} (h : ∀ e ∈ taken, ¬ SharesElement e c)
    (next : SweepsCleanly taken (waiting ++ [c]) cs) : SweepsCleanly taken waiting (c :: cs)
  | take {taken waiting cs : List Expr} {c e : Expr} (he : e ∈ taken) (h : SharesElement e c)
    (hpass : ∀ a u, PassedOver taken c a u → ∀ d ∈ waiting ++ cs, ¬ d.ReadsElement a u)
    (next : SweepsCleanly (taken ++ [c]) waiting cs) : SweepsCleanly taken waiting (c :: cs)

section

variable {taken waiting cs : List Expr} {c : Expr}

theorem sweepsCleanly_of_not_shares (h : ∀ c ∈ waiting ++ cs, ∀ e ∈ taken, ¬ SharesElement e c) :
    SweepsCleanly taken waiting cs := by
  induction cs generalizing waiting with
  | nil => exact .stop fun c hc => h c (List.mem_append_left _ hc)
  | cons c cs ih =>
    refine .leave (h c (by simp)) (ih fun d hd => h d ?_)
    rwa [List.append_assoc] at hd

/-- A round over constraints of which none is taken is none. -/
theorem sweepsCleanly_again_iff :
    SweepsCleanly taken waiting [] ↔ SweepsCleanly taken [] waiting := by
  constructor
  · intro h
    cases h with
    | stop h => exact sweepsCleanly_of_not_shares h
    | again _ _ _ next => exact next
  · intro next
    by_cases h : ∃ c ∈ waiting, ∃ e ∈ taken, SharesElement e c
    · obtain ⟨c, hc, e, he, h⟩ := h
      exact .again hc he h next
    · push Not at h
      exact .stop h

theorem sweepsCleanly_leave_iff (h : ∀ e ∈ taken, ¬ SharesElement e c) :
    SweepsCleanly taken waiting (c :: cs) ↔ SweepsCleanly taken (waiting ++ [c]) cs := by
  refine ⟨fun hs => ?_, .leave h⟩
  cases hs with
  | leave _ next => exact next
  | take he hshares => exact absurd hshares (h _ he)

theorem sweepsCleanly_take_iff (h : ∃ e ∈ taken, SharesElement e c) :
    SweepsCleanly taken waiting (c :: cs) ↔
      (∀ a u, PassedOver taken c a u → ∀ d ∈ waiting ++ cs, ¬ d.ReadsElement a u) ∧
        SweepsCleanly (taken ++ [c]) waiting cs := by
  obtain ⟨e, he, h⟩ := h
  refine ⟨fun hs => ?_, fun hs => .take he h hs.1 hs.2⟩
  cases hs with
  | leave hnot => exact absurd h (hnot e he)
  | take _ _ hpass next => exact ⟨hpass, next⟩

end

/-! ### The closure of the loop -/

variable {address : KleeArray → ℕ}

/-- The closure has what the taken expressions read, as far as the constraints that are left read
it. -/
structure Tracks (address : KleeArray → ℕ) (closure : IndependentElementSet)
    (taken left : List Expr) : Prop where
  ok : closure.Ok address
  touches : ∀ c ∈ left, ∀ a u, c.ReadsElement a u →
    (closure.Touches a u ↔ ∃ e ∈ taken, e.ReadsElement a u)
  known : ∀ a, (∃ u, closure.Touches a u) ↔ ∃ e ∈ taken, ∃ u, e.ReadsElement a u
  whole : ∀ a, closure.wholeObjects.find a = none ↔ ∀ e ∈ taken, e.ReadsConstantly a

section

variable {closure : IndependentElementSet} {taken left left' : List Expr} {c : Expr}
  {a : KleeArray} {u : ℕ}

theorem tracks_ofExpr (address : KleeArray → ℕ) (e : Expr) (left : List Expr) :
    Tracks address (.ofExpr address e) [e] left := by
  obtain ⟨hok, ht⟩ := IndependentElementSet.ofExpr_spec address e
  refine ⟨hok, fun c _ a u _ => ?_, fun a => ?_, fun a => ?_⟩
  · simp [ht]
  · simp [ht]
  · simp [IndependentElementSet.ofExpr_whole]

/-- The loop takes what the sweep takes. -/
theorem Tracks.intersects_iff (h : Tracks address closure taken left) (hc : c ∈ left) :
    (IndependentElementSet.ofExpr address c).intersects closure = true ↔
      ∃ e ∈ taken, SharesElement e c := by
  obtain ⟨hok, ht⟩ := IndependentElementSet.ofExpr_spec address c
  rw [IndependentElementSet.intersects_iff hok h.ok]
  simp only [ht, sharesElement_iff]
  constructor
  · rintro ⟨a, u, hcu, hu⟩
    obtain ⟨e, he, heu⟩ := (h.touches c hc a u hcu).mp hu
    exact ⟨e, he, a, u, heu, hcu⟩
  · rintro ⟨e, he, a, u, heu, hcu⟩
    exact ⟨a, u, hcu, (h.touches c hc a u hcu).mpr ⟨e, he, heu⟩⟩

/-- A union forgets what the sweep passes over. -/
theorem Tracks.forgets_iff (h : Tracks address closure taken left) (hc : c ∈ left) :
    closure.Forgets (.ofExpr address c) a u ↔ PassedOver taken c a u := by
  rw [IndependentElementSet.forgets_iff h.ok, h.whole, IndependentElementSet.ofExpr_whole, h.known]
  simp only [(IndependentElementSet.ofExpr_spec address c).2]
  constructor
  · rintro ⟨htaken, hconst, hknown, hu, hlt⟩
    refine ⟨hu, hknown, List.forall_mem_cons.mpr ⟨hconst, htaken⟩, fun v hv hv' => ?_⟩
    exact hlt v hv ((h.touches c hc a v hv).mpr hv')
  · rintro ⟨hu, hknown, hconst, hfirst⟩
    obtain ⟨hconst, htaken⟩ := List.forall_mem_cons.mp hconst
    exact ⟨htaken, hconst, hknown, hu,
      fun v hv hv' => hfirst v hv ((h.touches c hc a v hv).mp hv')⟩

theorem Tracks.add (h : Tracks address closure taken left) (hc : c ∈ left) (hleft : left' ⊆ left)
    (hpass : ∀ a u, PassedOver taken c a u → ∀ d ∈ left', ¬ d.ReadsElement a u) :
    Tracks address (closure.add address (.ofExpr address c)) (taken ++ [c]) left' := by
  obtain ⟨hokc, htc⟩ := IndependentElementSet.ofExpr_spec address c
  obtain ⟨hok, ht⟩ := IndependentElementSet.add_spec h.ok hokc
  refine ⟨hok, fun d hd a u hdu => ?_, fun a => ?_, fun a => ?_⟩
  · have hkept : ¬ closure.Forgets (.ofExpr address c) a u :=
      fun hf => hpass a u ((h.forgets_iff hc).mp hf) d hd hdu
    rw [ht, h.touches d (hleft hd) a u hdu, htc, and_iff_left hkept]
    simp [or_and_right, exists_or]
  · have hknown : (∃ u, (closure.add address (.ofExpr address c)).Touches a u) ↔
        (∃ u, closure.Touches a u) ∨ ∃ u, c.ReadsElement a u := by
      constructor
      · rintro ⟨u, hu⟩
        exact ((ht a u).mp hu).imp (fun h => ⟨u, h⟩) fun h => ⟨u, (htc a u).mp h.1⟩
      · rintro (⟨u, hu⟩ | ⟨u, hu⟩)
        · exact ⟨u, (ht a u).mpr (.inl hu)⟩
        · by_cases hf : closure.Forgets (.ofExpr address c) a u
          · obtain ⟨-, -, ⟨v, hv⟩, -⟩ := (IndependentElementSet.forgets_iff h.ok).mp hf
            exact ⟨v, (ht a v).mpr (.inl hv)⟩
          · exact ⟨u, (ht a u).mpr (.inr ⟨(htc a u).mpr hu, hf⟩)⟩
    rw [hknown, h.known]
    simp [or_and_right, exists_or]
  · rw [IndependentElementSet.add_whole h.ok, h.whole, IndependentElementSet.ofExpr_whole,
      List.forall_mem_append, List.forall_mem_singleton]

end

/-! ### The loop -/

/-- The worklist of the constraints. -/
def pairs (address : KleeArray → ℕ) (cs : List Expr) : List (Expr × IndependentElementSet) :=
  cs.map fun c => (c, .ofExpr address c)

/-- The rest of the loop in the middle of a round: `waiting` have been passed by. -/
def resume (address : KleeArray → ℕ) (closure : IndependentElementSet) (waiting cs : List Expr)
    (done : Bool) : List Expr :=
  let r := round address closure (pairs address cs)
  if (done && r.done) = true then r.result
  else r.result ++ (closureLoop address r.closure (pairs address waiting ++ r.newWorklist)).2

section

variable {closure : IndependentElementSet} {waiting cs : List Expr} {c : Expr} {done : Bool}

theorem closureLoop_eq (closure : IndependentElementSet) (cs : List Expr) :
    (closureLoop address closure (pairs address cs)).2 = resume address closure [] cs true := by
  rw [closureLoop, resume]
  split_ifs <;> simp_all [pairs]

theorem resume_stop : resume address closure waiting [] true = [] := rfl

theorem resume_again :
    resume address closure waiting [] false = resume address closure [] waiting true := by
  rw [← closureLoop_eq]
  simp [resume, pairs, round]

theorem resume_leave (h : ¬ (IndependentElementSet.ofExpr address c).intersects closure = true) :
    resume address closure waiting (c :: cs) done =
      resume address closure (waiting ++ [c]) cs done := by
  simp [resume, pairs, round, h]

theorem resume_take (h : (IndependentElementSet.ofExpr address c).intersects closure = true) :
    resume address closure waiting (c :: cs) done =
      c :: resume address (closure.add address (.ofExpr address c)) waiting cs
        (done && !(closure.addModified address (.ofExpr address c)).2) := by
  simp only [resume, pairs, List.map_cons, round, h, if_true, IndependentElementSet.add]
  cases done <;> cases (closure.addModified address (.ofExpr address c)).2 <;> simp
  split_ifs <;> rfl

end

/-- One of the unions leaves an index out that a constraint reads which is not taken yet. -/
def Drops (address : KleeArray → ℕ) (closure : IndependentElementSet) :
    List Expr → List Expr → Prop
  | _, [] => False
  | left, c :: cs =>
    (∃ a u, closure.Forgets (.ofExpr address c) a u ∧
      ∃ d ∈ left.erase c, (IndependentElementSet.ofExpr address d).Touches a u) ∨
    Drops address (closure.add address (.ofExpr address c)) (left.erase c) cs

theorem drops_perm {closure : IndependentElementSet} {left left' : List Expr}
    (h : left.Perm left') (cs : List Expr) :
    Drops address closure left cs ↔ Drops address closure left' cs := by
  induction cs generalizing closure left left' with
  | nil => exact Iff.rfl
  | cons c cs ih =>
    simp only [Drops, (h.erase c).mem_iff, ih (h.erase c)]

theorem drops_cons {closure : IndependentElementSet} {left left' : List Expr} {c : Expr}
    (h : left.Perm (c :: left')) (cs : List Expr) :
    Drops address closure left (c :: cs) ↔
      (∃ a u, closure.Forgets (.ofExpr address c) a u ∧
        ∃ d ∈ left', d.ReadsElement a u) ∨
      Drops address (closure.add address (.ofExpr address c)) left' cs := by
  have hperm : (left.erase c).Perm left' := by simpa using h.erase c
  simp only [Drops, hperm.mem_iff, drops_perm hperm,
    (IndependentElementSet.ofExpr_spec address _).2]

/-- While no union changes the closure, what has been passed by stays so. -/
theorem Tracks.not_shares_of_not_modified {closure : IndependentElementSet}
    {taken left left' : List Expr} {c d : Expr} (h : Tracks address closure taken left)
    (hadd : Tracks address (closure.add address (.ofExpr address c)) (taken ++ [c]) left')
    (hmodified : (closure.addModified address (.ofExpr address c)).2 = false)
    (hd : d ∈ left) (hd' : d ∈ left') (hnot : ∀ e ∈ taken, ¬ SharesElement e d) :
    ∀ e ∈ taken ++ [c], ¬ SharesElement e d := by
  intro e he hshares
  have hok := (IndependentElementSet.ofExpr_spec address d).1
  have hsame := IndependentElementSet.sameElements_of_not_modified hmodified
  obtain ⟨a, u, hdu, hu⟩ := (IndependentElementSet.intersects_iff hok hadd.ok).mp
    ((hadd.intersects_iff hd').mpr ⟨e, he, hshares⟩)
  obtain ⟨e', he', hshares'⟩ := (h.intersects_iff hd).mp
    ((IndependentElementSet.intersects_iff hok h.ok).mpr ⟨a, u, hdu, hsame.touches_iff.mp hu⟩)
  exact hnot e' he' hshares'

/-- The sweep is clean as long as no union leaves out an index that is still waited for, and what
is not taken then shares no element with what is. -/
theorem resume_spec (closure : IndependentElementSet) (taken waiting : List Expr) :
    ∀ (cs : List Expr) (done : Bool), Tracks address closure taken (waiting ++ cs) →
      (done = true → ∀ c ∈ waiting, ∀ e ∈ taken, ¬ SharesElement e c) →
      (SweepsCleanly taken waiting cs ↔
        ¬ Drops address closure (waiting ++ cs) (resume address closure waiting cs done)) ∧
      (SweepsCleanly taken waiting cs → ∃ left,
        (resume address closure waiting cs done ++ left).Perm (waiting ++ cs) ∧
          ∀ e ∈ taken ++ resume address closure waiting cs done, ∀ c ∈ left,
            ¬ SharesElement e c)
  | [], true, _, hwaiting => by
    rw [resume_stop]
    refine ⟨iff_of_true (.stop (hwaiting rfl)) id, fun _ => ⟨waiting, by simp, fun e he c hc => ?_⟩⟩
    exact hwaiting rfl c hc e (by simpa using he)
  | [], false, h, _ => by
    rw [List.append_nil] at h ⊢
    rw [resume_again, sweepsCleanly_again_iff]
    exact resume_spec closure taken [] waiting true h fun _ c hc => absurd hc List.not_mem_nil
  | c :: cs, done, h, hwaiting => by
    have hc : c ∈ waiting ++ c :: cs := List.mem_append_right _ List.mem_cons_self
    have hleft : waiting ++ cs ⊆ waiting ++ c :: cs :=
      (List.Sublist.append_left (List.sublist_cons_self c cs) waiting).subset
    by_cases hshares : ∃ e ∈ taken, SharesElement e c
    · rw [resume_take ((h.intersects_iff hc).mpr hshares), sweepsCleanly_take_iff hshares,
        drops_cons List.perm_middle]
      simp only [h.forgets_iff hc]
      by_cases hpass : ∀ a u, PassedOver taken c a u → ∀ d ∈ waiting ++ cs, ¬ d.ReadsElement a u
      · have hadd := h.add hc hleft hpass
        obtain ⟨hiff, hout⟩ := resume_spec _ (taken ++ [c]) waiting cs
          (done && !(closure.addModified address (.ofExpr address c)).2) hadd fun hdone d hd => by
            simp only [Bool.and_eq_true, Bool.not_eq_true'] at hdone
            exact h.not_shares_of_not_modified hadd hdone.2 (List.mem_append_left _ hd)
              (List.mem_append_left _ hd) (hwaiting hdone.1 d hd)
        refine ⟨?_, fun hclean => ?_⟩
        · rw [hiff, and_iff_right hpass, not_or, iff_and_self]
          rintro - ⟨a, u, hover, d, hd, hdu⟩
          exact hpass a u hover d hd hdu
        · obtain ⟨left, hperm, hleft⟩ := hout hclean.2
          refine ⟨left, (hperm.cons c).trans List.perm_middle.symm, fun e he => hleft e ?_⟩
          rwa [List.append_cons] at he
      · refine ⟨iff_of_false (fun hclean => hpass hclean.1) (not_not.mpr (.inl ?_)),
          fun hclean => absurd hclean.1 hpass⟩
        push Not at hpass
        exact hpass
    · have hleave := fun hmeets => hshares ((h.intersects_iff hc).mp hmeets)
      push Not at hshares
      rw [resume_leave hleave, sweepsCleanly_leave_iff hshares, List.append_cons waiting c cs]
      rw [List.append_cons] at h
      refine resume_spec closure taken (waiting ++ [c]) cs done h fun hdone => ?_
      rw [List.forall_mem_append, List.forall_mem_singleton]
      exact ⟨hwaiting hdone, hshares⟩
  termination_by cs done => (waiting.length + cs.length, (!done).toNat, cs.length)
  decreasing_by all_goals simp [Prod.lex_def]; try omega

/-- No index is passed over that is still waited for exactly when no union of the loop leaves such
an index out, and then every reachable constraint is in the list. -/
theorem getIndependentConstraints_complete_where (address : KleeArray → ℕ) (q : Query) :
    (SweepsCleanly [q.expr] [] q.constraints →
      ∀ c, Reachable q c → c ∈ (getIndependentConstraints address q).2) ∧
    (SweepsCleanly [q.expr] [] q.constraints ↔
      ¬ Drops address (.ofExpr address q.expr) q.constraints
        (getIndependentConstraints address q).2) := by
  have hresume : (getIndependentConstraints address q).2 =
      resume address (.ofExpr address q.expr) [] q.constraints true := closureLoop_eq _ _
  obtain ⟨hiff, hout⟩ := resume_spec (.ofExpr address q.expr) [q.expr] [] q.constraints true
    (tracks_ofExpr address q.expr _) fun _ c hc => absurd hc List.not_mem_nil
  rw [← hresume] at hiff hout
  refine ⟨fun hclean c hc => ?_, hiff⟩
  obtain ⟨left, hperm, hleft⟩ := hout hclean
  have htaken : ∀ {d e : Expr}, d ∈ q.constraints → SharesElement e d →
      e ∈ [q.expr] ++ (getIndependentConstraints address q).2 →
        d ∈ (getIndependentConstraints address q).2 := by
    intro d e hd hshares he
    refine (List.mem_append.mp (hperm.symm.subset hd)).resolve_right fun hd => ?_
    exact hleft e he d hd hshares
  induction hc with
  | query hc hshares => exact htaken hc hshares List.mem_cons_self
  | next _ hd hshares hmem => exact htaken hd hshares (List.mem_cons_of_mem _ hmem)

/-- The expression reads the second byte of an array, one constraint both bytes and one the first.
The union forgets the first byte, and the last constraint is dropped. -/
theorem getIndependentConstraints_misses_constraint :
    let a : KleeArray := ⟨"a", 2, 0, []⟩
    let byte := fun i => Expr.read (.root a) (.alloc i 32)
    let both := Expr.binary .Eq (byte 0) (byte 1)
    let first := Expr.binary .Eq (.alloc 0 8) (byte 0)
    let q : Query := ⟨[both, first], .binary .Eq (.alloc 0 8) (byte 1)⟩
    Reachable q first ∧ first ∉ (getIndependentConstraints (fun _ => 0) q).2 := by
  intro a byte both first q
  have hshares : ∀ {e f : Expr} {i : ℕ}, (.root a, .alloc i 32) ∈ e.elementReads →
      (.root a, .alloc i 32) ∈ f.elementReads → SharesElement e f :=
    fun he hf => ⟨_, he, _, hf, rfl, .inr (.inr ⟨_, _, rfl, rfl, rfl⟩)⟩
  have hboth : Reachable q both :=
    .query List.mem_cons_self (hshares (i := 1) (by decide) (by decide))
  refine ⟨.next hboth (by simp [q]) (hshares (i := 0) (by decide) (by decide)), ?_⟩
  rw [getIndependentConstraints, closureLoop, dif_neg (by decide)]
  rw [closureLoop, dif_pos (by decide)]
  decide

/-- With an expression that reads the first byte, and a last constraint that reads the second, none
is passed over. -/
theorem getIndependentConstraints_complete_both :
    let a : KleeArray := ⟨"a", 2, 0, []⟩
    let byte := fun i => Expr.read (.root a) (.alloc i 32)
    let both := Expr.binary .Eq (byte 0) (byte 1)
    let second := Expr.binary .Eq (.alloc 0 8) (byte 1)
    let q : Query := ⟨[both, second], .binary .Eq (.alloc 0 8) (byte 0)⟩
    SweepsCleanly [q.expr] [] q.constraints ∧
      ∀ c, Reachable q c → c ∈ (getIndependentConstraints (fun _ => 0) q).2 := by
  intro a byte both second q
  have hshares : ∀ {e f : Expr} {i : ℕ}, (.root a, .alloc i 32) ∈ e.elementReads →
      (.root a, .alloc i 32) ∈ f.elementReads → SharesElement e f :=
    fun he hf => ⟨_, he, _, hf, rfl, .inr (.inr ⟨_, _, rfl, rfl, rfl⟩)⟩
  have hclean : SweepsCleanly [q.expr] [] q.constraints := by
    refine .take List.mem_cons_self (hshares (i := 0) (by decide) (by decide)) ?_
      (.take (e := both) (by simp) (hshares (i := 1) (by decide) (by decide)) ?_
        (.stop fun c hc => absurd hc List.not_mem_nil))
    · intro b u hover
      obtain ⟨r, hr, rfl, -⟩ := hover.reads
      have harray : ∀ r ∈ both.elementReads, r.1.array = a := by decide
      rw [harray r hr] at hover
      have hfirst : ∀ {e : Expr}, (.root a, .alloc 0 32) ∈ e.elementReads → e.ReadsElement a 0 :=
        fun he => ⟨_, he, rfl, fun c hc => by cases hc; rfl⟩
      exact absurd (hover.first 0 (hfirst (by decide)) ⟨_, List.mem_cons_self, hfirst (by decide)⟩)
        (Nat.not_lt_zero u)
    · simp
  exact ⟨hclean, (getIndependentConstraints_complete_where _ q).1 hclean⟩

end IndependentSolver

end TaseVerifier
